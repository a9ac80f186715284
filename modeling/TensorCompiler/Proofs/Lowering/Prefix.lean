import TensorCompiler.Proofs.Graph.Arena
import TensorCompiler.Proofs.Lowering.Locations

/-!
The stream of a function that continues another. The nodes that both have are lowered alike, so the
longer stream starts with the shorter one (`exists_streams`). An activation of the shorter one is written
by the same instruction in the longer one, and not deallocated earlier (`exists_longer`); so the artifact
of the longer one has a place for every buffer of the shorter one (`hosts_of_extends`).
-/

namespace TensorCompiler.Lowering

open TensorCompiler.Lowering.Stream

variable {s : Storage} {f g : Function} {st st' : Stream}

/-! ## One node

A function is named in errors only, so what is lowered without one is the same in every function. -/

theorem operand_run_ok {v : Value} {r : Nat × Stream} (h : (operand s f v).run st = .ok r) :
    (operand s g v).run st = .ok r := by
  cases v with
  | storage ref => exact h
  | node id result =>
    unfold operand at h ⊢
    rw [run_bind_ok st (x := get) (a := st) rfl] at h ⊢
    cases hb : st.values.lookup (id, result) with
    | some b => simpa only [hb] using h
    | none =>
      rw [hb] at h
      cases h

theorem operands_run_ok {vs : List Value} {r : List Nat × Stream}
    (h : (vs.mapM (operand s f)).run st = .ok r) : (vs.mapM (operand s g)).run st = .ok r := by
  induction vs generalizing st r with
  | nil => exact h
  | cons v vs ih =>
    rw [List.mapM_cons, StateT.run_bind] at h ⊢
    obtain ⟨first, hfirst, hrest⟩ := bind_ok_iff.1 h
    rw [StateT.run_bind] at hrest
    obtain ⟨rest, hrest, hlast⟩ := bind_ok_iff.1 hrest
    refine bind_ok_iff.2 ⟨first, operand_run_ok hfirst, ?_⟩
    rw [StateT.run_bind]
    exact bind_ok_iff.2 ⟨rest, ih hrest, hlast⟩

theorem lowerNode_run_ok {n : Node} {i : Nat} {r : Unit × Stream}
    (h : (lowerNode s f n i).run st = .ok r) : (lowerNode s g n i).run st = .ok r := by
  unfold lowerNode at h ⊢
  rw [StateT.run_bind] at h ⊢
  obtain ⟨operands, hoperands, hrest⟩ := bind_ok_iff.1 h
  refine bind_ok_iff.2 ⟨operands, operands_run_ok hoperands, ?_⟩
  revert hrest
  split
  · unfold lowerReshape
    split
    · exact id
    · exact nofun
  all_goals exact id

/-- Nodes that one function lowers, another one does. -/
theorem nodes_run_ok {ns : List (Node × Nat)} {r : Unit × Stream}
    (h : (ns.forM fun (n, id) => lowerNode s f n id : Emit Unit).run st = .ok r) :
    (ns.forM fun (n, id) => lowerNode s g n id : Emit Unit).run st = .ok r := by
  induction ns generalizing st with
  | nil => exact h
  | cons n ns ih =>
    obtain ⟨r₁, hfirst, hrest⟩ := bind_ok_iff.1 h
    exact bind_ok_iff.2 ⟨r₁, lowerNode_run_ok hfirst, ih hrest⟩

/-! ## All nodes -/

/-- What describes nodes of a function describes them in a function that continues it. -/
theorem Stream.Describes.of_nodes {k : Nat} {seen : List StorageRef} (h : Describes s f k seen st)
    (hnodes : f.nodes <+: g.nodes) : Describes s g k seen st := by
  have hold {i : Nat} {n : Node} (hi : i < k) (hn : g.nodes[i]? = some n) :
      f.nodes[i]? = some n := by
    have hget := List.getElem?_eq_getElem (Nat.lt_of_lt_of_le hi h.bound)
    rw [hget, ← hn]
    exact (Function.getElem?_of_nodes hnodes hget).symm
  exact { h with
    value := fun hv => by
      obtain ⟨hi, n, d, hn, hd⟩ := h.value hv
      exact ⟨hi, n, d, Function.getElem?_of_nodes hnodes hn, hd⟩
    defined := fun hi hn => h.defined hi (hold hi hn)
    bound := Nat.le_trans h.bound hnodes.length_le
    emits := fun hi hn => h.emits hi (hold hi hn) }

/-- The stream of a function continues the stream of a function that it continues. -/
theorem exists_streams (hf : f.verify s = .ok ()) (hg : g.verify s = .ok ())
    (hnodes : f.nodes <+: g.nodes) : ∃ st st', Extends st st' ∧ stream s f = .ok st ∧
      stream s g = .ok st' := by
  obtain ⟨rest, hrest⟩ := hnodes
  obtain ⟨st, hrun, h, -⟩ := nodes_describe hf f.nodes rfl (Describes.empty s f)
  have hdrop : g.nodes.drop f.nodes.length = rest := by rw [← hrest, List.drop_left]
  obtain ⟨st', hrun', h', hext⟩ := nodes_describe hg rest hdrop (h.of_nodes ⟨rest, hrest⟩)
  have hstream : stream s f = .ok st := by
    rw [stream, hrun]
    rfl
  have hall : (g.nodes.zipIdx.forM fun (n, id) => lowerNode s g n id : Emit Unit).run .empty =
      .ok ((), st') := by
    rw [← hrest, List.zipIdx_append, Nat.zero_add, List.forM_eq_forM, List.forM_append]
    exact (run_bind_ok st (nodes_run_ok hrun)).trans hrun'
  have hstream' : stream s g = .ok st' := by
    rw [stream, hall]
    rfl
  exact ⟨st, st', hext, hstream, hstream'⟩

/-! ## What both streams have -/

/-- Declared roots stay. -/
theorem Stream.Extends.rootOf_eq {k : Nat} {seen : List StorageRef} (hext : Extends st st')
    (h : Describes s f k seen st) {b : Nat} {d : Buffer}
    (hd : st.buffers[rootOf st.roots b]? = some d) : rootOf st'.roots b = rootOf st.roots b := by
  by_cases hb : b < st.buffers.length
  · rw [rootOf, hext.roots hb, rootOf]
  · -- what is not declared has no root but itself
    have hnone : st.roots.get? b = none :=
      h.unrooted fun hd' => absurd (List.getElem?_eq_some_iff.1 hd').1 hb
    rw [rootOf, hnone, Option.getD_none] at hd
    exact absurd (List.getElem?_eq_some_iff.1 hd).1 hb

section Longer

variable {reuse reuse' : Bool} {a a' : Artifact} (h : Lowered s f reuse st a)
  (h' : Lowered s g reuse' st' a') (hext : Extends st st')

include h h' hext

/-- An activation of the shorter stream is one of the longer stream, from the same instruction on and
no shorter. -/
theorem exists_longer {l : Lifetime} (hl : l ∈ lifetimes st) : ∃ l' ∈ lifetimes st',
    l'.buffer = l.buffer ∧ l'.first = l.first ∧ l.last ≤ l'.last := by
  obtain ⟨d, hd, hkind⟩ := (h.alive l hl).declared
  obtain ⟨l', hl', hbuffer⟩ := exists_lifetime h'.verified h'.describes (hext.buffers hd) hkind
  refine ⟨l', hl', hbuffer, ?_, ?_⟩
  · obtain ⟨i, r, hactivation⟩ := exists_activation h'.describes (hext.buffers hd) hkind
    obtain ⟨x, hx, hwrite⟩ := (h.alive l hl).written
    obtain ⟨y, hy, hwrite'⟩ := (h'.alive l' hl').written
    rw [eq_of_write h'.describes hactivation (hext.body hx) hwrite,
      eq_of_write h'.describes hactivation hy (hbuffer ▸ hwrite')]
  · obtain ⟨x, o, hx, ho, hroot⟩ := accessed_of_mem hl
    have hroot' : rootOf st'.roots o.buffer = l'.buffer := by
      rw [hext.rootOf_eq h.describes (hroot ▸ hd), hroot, hbuffer]
    exact ((h'.alive l' hl').within (hext.body hx) ho hroot').2

/-- The activation has the slot in the longer stream that it has as one of the shorter stream. -/
theorem inSlot_iff {l l' : Lifetime} (hl : l ∈ lifetimes st) (hl' : l' ∈ lifetimes st')
    (hbuffer : l'.buffer = l.buffer) {k : Nat} : InSlot st a' l k ↔ InSlot st' a' l' k := by
  obtain ⟨k', hk'⟩ := h'.exists_slot hl'
  constructor
  · intro hk
    obtain rfl : k = k' :=
      Option.some.inj (hk.assigned.symm.trans (hbuffer ▸ hk'.assigned))
    exact hk'
  · intro hk
    obtain ⟨d, hd, -⟩ := (h.alive l hl).declared
    obtain ⟨slot, d', hslot, hd', hfits⟩ := hk.fits
    obtain rfl : d = d' := Option.some.inj ((hext.buffers hd).symm.trans (hbuffer ▸ hd'))
    refine ⟨hbuffer ▸ hk.assigned, ⟨slot, d, hslot, hd, hfits⟩, fun {b} hroot => hk.located ?_⟩
    rw [hext.rootOf_eq h.describes (hroot ▸ hd), hroot, hbuffer]

/-- The artifact of the longer function has a place for every buffer of the shorter stream. -/
theorem hosts_of_extends : Hosts st a' where
  typed hd := h'.hosts.typed (hext.buffers hd)
  slot hl := by
    obtain ⟨l', hl', hbuffer, -⟩ := exists_longer h h' hext hl
    obtain ⟨k, hk⟩ := h'.exists_slot hl'
    exact ⟨k, (inSlot_iff h h' hext hl hl' hbuffer).2 hk⟩
  apart {l m} hl hm hne {j k q} hj hj' hk hq := by
    obtain ⟨l', hl', hlbuffer, hlfirst, hllast⟩ := exists_longer h h' hext hl
    obtain ⟨m', hm', hmbuffer, hmfirst, hmlast⟩ := exists_longer h h' hext hm
    exact h'.slots_ne hl' hm' (hlbuffer ▸ hmbuffer ▸ hne)
      ⟨hlfirst ▸ hj.1, Nat.le_trans hj.2 hllast⟩ ⟨hmfirst ▸ hj'.1, Nat.le_trans hj'.2 hmlast⟩
      ((inSlot_iff h h' hext hl hl' hlbuffer).1 hk) ((inSlot_iff h h' hext hm hm' hmbuffer).1 hq)
  located
    | .storage hb => by
      obtain ⟨name, type, -, -, hd⟩ := h.describes.weight hb
      refine h'.locate_shown (hext.weights ?_)
      rwa [hext.rootOf_eq h.describes hd]
    | .state ⟨p, o₁, o₂, hx⟩ => h'.locate_momentum ⟨p, o₁, o₂, hext.body hx⟩

end Longer

end TensorCompiler.Lowering
