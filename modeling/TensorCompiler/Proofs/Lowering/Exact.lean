import TensorCompiler.Proofs.Lowering.Total

/-!
The lifetimes of a lowered function are exact. `Artifact.Brackets` says where an activation is
allocated, defined, last accessed and deallocated, and that only markers stand between; every
activation of a lowered function has such a bracket (`Lowered.brackets`), and every marker stands in
one (`Lowered.activation_of_marker`).
-/

namespace TensorCompiler

open Plan

/-- The activation `b` is allocated at `start` and deallocated at `stop` only. The instruction at
`first` defines it, after allocations alone; the one at `last` is the last to access it or a view of
it, and only deallocations follow before its own. -/
structure Artifact.Brackets (a : Artifact) (b start first last stop : Nat) : Prop where
  alloc_iff : ∀ k, Marks a.instructions .alloc k b ↔ k = start
  dealloc_iff : ∀ k, Marks a.instructions .dealloc k b ↔ k = stop
  start_lt : start < first
  first_le : first ≤ last
  lt_stop : last < stop
  allocs : ∀ k y, start < k → k < first → a.instructions[k]? = some y → y.op = .alloc
  deallocs : ∀ k y, last < k → k < stop → a.instructions[k]? = some y → y.op = .dealloc
  defined : ∀ k, (∃ x, a.instructions[k]? = some x ∧ x.op.isMarker = false ∧
    ∃ access, access ≠ .read ∧ ⟨b, access⟩ ∈ x.operands) ↔ k = first
  accessed : ∃ x o, a.instructions[last]? = some x ∧ x.op.isMarker = false ∧ o ∈ x.operands ∧
    a.ViewOf b o.buffer
  within : ∀ k x o, a.instructions[k]? = some x → x.op.isMarker = false → o ∈ x.operands →
    a.ViewOf b o.buffer → first ≤ k ∧ k ≤ last

namespace Lowering

open TensorCompiler.Lowering.Stream

variable {s : Storage} {f : Function} {reuse : Bool} {seen : List StorageRef} {st : Stream}
  {a : Artifact}

/-! ## Accesses -/

/-- No other instruction than its own changes an activation under its own name. -/
theorem eq_of_access (h : Describes s f f.nodes.length seen st) {i r b j : Nat}
    (hb : st.Activation i r b) {x : Instruction} (hx : st.body[j]? = some x) {access : Access}
    (haccess : access ≠ .read) (hmem : ⟨b, access⟩ ∈ x.operands) : j = i := by
  cases access with
  | read => exact absurd rfl haccess
  | write => exact eq_of_write h hb hx hmem
  | readWrite =>
    obtain ⟨d, hd, hkind⟩ := hb.declared
    have hj : j < f.nodes.length := h.length ▸ (List.getElem?_eq_some_iff.1 hx).1
    obtain ⟨x', hx', he⟩ := h.emits hj (List.getElem?_eq_getElem hj)
    obtain rfl := Option.some.inj (hx.symm.trans hx')
    -- only a step of descent reads and writes, its weight and its momentum
    cases he with
    | view | save | compute => simp [Instruction.ofBuffers] at hmem
    | descent _ _ _ hw _ hstate =>
      rcases (by simpa using hmem) with rfl | rfl
      · obtain ⟨name, type, -, -, hd'⟩ := h.weight hw
        rw [Option.some.inj (hd.symm.trans hd')] at hkind
        cases hkind
      · rw [Option.some.inj (hd.symm.trans hstate)] at hkind
        cases hkind

/-! ## Markers around an instruction -/

section

variable {lives : List Lifetime} {body : List Instruction} {j k : Nat} {y : Instruction}

theorem alloc_of_lt_position (hj : j < body.length) (hle : blockStart lives body j ≤ k)
    (hlt : k < position lives body j) (hy : (withMarkers lives body)[k]? = some y) :
    y.op = .alloc := by
  obtain ⟨q, rfl⟩ := Nat.exists_eq_add_of_le hle
  have hq : q < (starting lives j).length := by
    unfold position at hlt
    omega
  rw [getElem?_alloc hj (List.getElem?_eq_getElem hq)] at hy
  rw [← Option.some.inj hy]
  rfl

theorem dealloc_of_position_lt (hj : j < body.length) (hlt : position lives body j < k)
    (hle : k < position lives body j + 1 + (ending lives j).length)
    (hy : (withMarkers lives body)[k]? = some y) : y.op = .dealloc := by
  obtain ⟨q, rfl⟩ := Nat.exists_eq_add_of_le (Nat.succ_le_of_lt hlt)
  have hq : q < (ending lives j).length := by omega
  rw [Nat.succ_eq_add_one, getElem?_dealloc hj (List.getElem?_eq_getElem hq)] at hy
  rw [← Option.some.inj hy]
  rfl

end

/-! ## Brackets -/

namespace Lowered

/-- An instruction between markers is one of the body, at the position of its node. -/
theorem exists_position (h : Lowered s f reuse st a) {k : Nat} {x : Instruction}
    (hx : a.instructions[k]? = some x) (hmarker : x.op.isMarker = false) :
    ∃ j, st.body[j]? = some x ∧ k = position (lifetimes st) st.body j := by
  rw [h.instructions] at hx
  obtain ⟨j, -, ⟨q, l, -, rfl, -⟩ | hj | ⟨q, l, -, rfl, -⟩⟩ := withMarkers_cases hx
  · cases hmarker
  · exact ⟨j, hj⟩
  · cases hmarker

/-- The roots of lowering are the ends of the declared chains of views. -/
theorem viewOf_iff (h : Lowered s f reuse st a) {k : Nat} {x : Instruction} {o : Operand} {b : Nat}
    {d : Buffer} (hx : a.instructions[k]? = some x) (ho : o ∈ x.operands)
    (hd : a.buffer? b = some d) (hkind : d.kind = .activation) :
    a.ViewOf b o.buffer ↔ rootOf st.roots o.buffer = b := by
  have hdeclared := (h.operands_fit hx).2 o ho
  obtain ⟨e, hbuffer⟩ : ∃ e, a.buffer? o.buffer = some e := by
    rw [Artifact.buffer?, h.buffers]
    exact ⟨_, List.getElem?_eq_getElem hdeclared⟩
  rw [← h.roots_declared.root_eq_iff hbuffer (Artifact.base_of_activation hd hkind), h.root_eq]

/-- Every activation has its bracket. -/
theorem brackets (h : Lowered s f reuse st a) {b : Nat} {d : Buffer} (hd : a.buffer? b = some d)
    (hkind : d.kind = .activation) : ∃ start first last stop, a.Brackets b start first last stop := by
  have hd' : st.buffers[b]? = some d := by rwa [Artifact.buffer?, h.buffers] at hd
  obtain ⟨i, r, hactivation⟩ := exists_activation h.describes hd' hkind
  obtain ⟨l, hl, rfl⟩ := exists_lifetime h.verified h.describes hd' hkind
  have halive := h.alive l hl
  have hfirst : l.first < st.body.length := Nat.lt_of_le_of_lt halive.first_le halive.last_lt
  have hbracketed := stream_bracketed h.verified h.describes
  rw [← h.instructions] at hbracketed
  obtain ⟨q, hq, q', hq', hstart, hstop⟩ := h.exists_markers hl
  have hbody {j : Nat} {x : Instruction} (hx : st.body[j]? = some x) :
      a.instructions[position (lifetimes st) st.body j]? = some x :=
    h.instructions ▸ getElem?_position hx
  refine ⟨_, position (lifetimes st) st.body l.first, position (lifetimes st) st.body l.last, _,
    fun k => ⟨fun hk => hbracketed.alloc_unique hk hstart, fun heq => heq ▸ hstart⟩,
    fun k => ⟨fun hk => hbracketed.dealloc_unique hk hstop, fun heq => heq ▸ hstop⟩,
    Nat.add_lt_add_left hq _, position_mono halive.first_le halive.last_lt,
    Nat.lt_add_right q' (Nat.lt_succ_self _), ?_, ?_, fun k => ⟨?_, ?_⟩, ?_, ?_⟩
  · intro k y hk hlt hy
    exact alloc_of_lt_position hfirst (by omega) hlt (h.instructions ▸ hy)
  · intro k y hlt hk hy
    exact dealloc_of_position_lt halive.last_lt hlt (by omega) (h.instructions ▸ hy)
  · rintro ⟨x, hx, hmarker, access, haccess, hmem⟩
    obtain ⟨j, hj, rfl⟩ := h.exists_position hx hmarker
    obtain ⟨y, hy, hwrite⟩ := halive.written
    rw [eq_of_access h.describes hactivation hj haccess hmem,
      eq_of_write h.describes hactivation hy hwrite]
  · rintro rfl
    obtain ⟨x, hx, hwrite⟩ := halive.written
    exact ⟨x, hbody hx, h.not_marker x (List.mem_of_getElem? hx), .write, by simp, hwrite⟩
  · obtain ⟨x, o, hx, ho, hroot⟩ := accessed_of_mem hl
    exact ⟨x, o, hbody hx, h.not_marker x (List.mem_of_getElem? hx), ho,
      (h.viewOf_iff (hbody hx) ho hd hkind).2 hroot⟩
  · intro k x o hx hmarker ho hview
    obtain ⟨j, hj, rfl⟩ := h.exists_position hx hmarker
    obtain ⟨hle, hle'⟩ := halive.within hj ho ((h.viewOf_iff hx ho hd hkind).1 hview)
    exact ⟨position_mono hle (List.getElem?_eq_some_iff.1 hj).1, position_mono hle' halive.last_lt⟩

/-- A marker names one buffer, an activation. -/
theorem activation_of_marker (h : Lowered s f reuse st a) {x : Instruction}
    (hx : x ∈ a.instructions) (hmarker : x.op.isMarker = true) :
    ∃ b d, x.buffers = [b] ∧ a.buffer? b = some d ∧ d.kind = .activation := by
  have hlife {l : Lifetime} (hl : l ∈ lifetimes st) :
      ∃ d, a.buffer? l.buffer = some d ∧ d.kind = .activation := by
    rw [Artifact.buffer?, h.buffers]
    exact (h.alive l hl).declared
  obtain ⟨p, hp⟩ := List.mem_iff_getElem?.1 hx
  rw [h.instructions] at hp
  obtain ⟨j, -, ⟨q, l, hl, rfl, -⟩ | ⟨hxj, -⟩ | ⟨q, l, hl, rfl, -⟩⟩ := withMarkers_cases hp
  · obtain ⟨d, hd⟩ := hlife (mem_starting.1 (List.mem_of_getElem? hl)).1
    exact ⟨l.buffer, d, rfl, hd⟩
  · rw [h.not_marker x (List.mem_of_getElem? hxj)] at hmarker
    cases hmarker
  · obtain ⟨d, hd⟩ := hlife (mem_ending.1 (List.mem_of_getElem? hl)).1
    exact ⟨l.buffer, d, rfl, hd⟩

/-- A buffer is declared as a view exactly for the result of a reshape, of the buffer of its operand. -/
theorem view_iff (h : Lowered s f reuse st a) (b src : Nat) :
    (∃ d, a.buffer? b = some d ∧ d.kind = .view src) ↔
      ∃ i n shape v, f.nodes[i]? = some n ∧ n.op = .reshape shape ∧ n.inputs = [v] ∧
        st.bufferOf? v = some src ∧ st.bufferOf? (.node i 0) = some b := by
  rw [Artifact.buffer?, h.buffers]
  constructor
  · rintro ⟨d, hd, hkind⟩
    have horigin := h.describes.origin hd
    rw [hkind] at horigin
    obtain ⟨⟨i, r⟩, hv⟩ := horigin
    obtain ⟨rfl, n, shape, v, type, hn, hop, hin, hsrc, -⟩ :=
      reshape_of_view h.verified h.describes hv hd hkind
    exact ⟨i, n, shape, v, hn, hop, hin, hsrc, hv⟩
  · rintro ⟨i, n, shape, v, hn, hop, hin, hsrc, hv⟩
    obtain ⟨-, n', d, hn', -, hd, hresult⟩ := h.describes.value hv
    obtain rfl := Option.some.inj (hn.symm.trans hn')
    obtain ⟨src', hsrc', hview⟩ := hresult.of_reshape hop hin
    exact ⟨d, hd, Option.some.inj (hsrc.symm.trans hsrc') ▸ hview⟩

end Lowered

/-- The lifetimes of a lowered function are exact. Without markers its stream has one instruction for
each node, in order; every activation has its bracket, which counts views, the results of reshapes;
and a marker names an activation. The function is lowered if a word counts the bytes of its slots. -/
theorem lifetimes_exact (hverify : f.verify s = .ok ()) (reuse : Bool) :
    (arenaBytes s f reuse < Word.size → ∃ a, f.lower s reuse = .ok a) ∧
    ∃ st, stream s f = .ok st ∧ ∀ a, f.lower s reuse = .ok a → a.buffers = st.buffers ∧
      (∃ body, a.instructions.filter (fun x => !x.op.isMarker) = body ∧
        body.length = f.nodes.length ∧ ∀ (i : Nat) (n : Node), f.nodes[i]? = some n →
          ∃ x, body[i]? = some x ∧ st.Emits i n x) ∧
      (∀ (b : Nat) (d : Buffer), a.buffer? b = some d → d.kind = .activation →
        ∃ start first last stop, a.Brackets b start first last stop) ∧
      (∀ b src : Nat, (∃ d, a.buffer? b = some d ∧ d.kind = .view src) ↔
        ∃ i n shape v, f.nodes[i]? = some n ∧ n.op = .reshape shape ∧ n.inputs = [v] ∧
          st.bufferOf? v = some src ∧ st.bufferOf? (.node i 0) = some b) ∧
      ∀ x ∈ a.instructions, x.op.isMarker = true →
        ∃ b d, x.buffers = [b] ∧ a.buffer? b = some d ∧ d.kind = .activation := by
  obtain ⟨st, hstream, hdescribes⟩ := stream_describes hverify
  refine ⟨exists_lower hverify, st, hstream, fun a hlower => ?_⟩
  obtain ⟨st', hstream', h, -⟩ := lowered_of_lower hlower
  obtain rfl := Except.ok.inj (hstream.symm.trans hstream')
  refine ⟨h.buffers, ⟨st.body, ?_, hdescribes.length, fun i n hn => ?_⟩,
    fun b d hd hkind => h.brackets hd hkind, h.view_iff,
    fun x hx hmarker => h.activation_of_marker hx hmarker⟩
  · rw [h.instructions, filter_withMarkers h.not_marker]
  · exact hdescribes.emits (List.getElem?_eq_some_iff.1 hn).1 hn

/-- The sample function has a view of a placeholder, and one activation. -/
theorem lifetimes_exact_sample : Sample.function.verify Sample.storage = .ok () ∧
    ∃ a, Sample.function.lower Sample.storage true = .ok a ∧
      (a.instructions.filter fun x => !x.op.isMarker).length = 4 ∧
      ∀ b d, a.buffer? b = some d → d.kind = .activation →
        ∃ start first last stop, a.Brackets b start first last stop := by
  obtain ⟨hlower, st, -, hexact⟩ := lifetimes_exact Sample.verify_function true
  obtain ⟨a, ha⟩ := hlower (Sample.arenaBytes_function true)
  obtain ⟨-, ⟨body, hbody, hlength, -⟩, hbrackets, -⟩ := hexact a ha
  exact ⟨Sample.verify_function, a, ha, hbody ▸ hlength, hbrackets⟩

end Lowering

end TensorCompiler
