import TensorCompiler.Graph.DeadNodes
import TensorCompiler.Proofs.Graph.Solved
import Mathlib.Data.List.Induction

/-!
Elimination of dead nodes keeps the values of the live ones. `kept` is the part of a list that stands
at the kept positions; a kept element moves to the number of kept positions before it
(`getElem?_kept`). Sinks and the producers of live nodes are live, so a solved function stays solved
(`Solved.eliminateDead`).
-/

namespace TensorCompiler

/-! ## Kept positions -/

section

variable {β : Type}

/-- The elements at the positions to be kept. -/
def kept (keep : Nat → Bool) (l : List β) : List β :=
  (l.zipIdx.filter fun x => keep x.2).map (·.1)

theorem kept_snoc (keep : Nat → Bool) (l : List β) (b : β) :
    kept keep (l ++ [b]) = kept keep l ++ if keep l.length then [b] else [] := by
  unfold kept
  rw [List.zipIdx_append, List.filter_append, List.map_append, List.zipIdx_singleton,
    List.filter_singleton]
  split <;> simp_all

theorem length_kept (keep : Nat → Bool) (l : List β) :
    (kept keep l).length = (List.range l.length).countP keep := by
  induction l using List.reverseRecOn with
  | nil => rfl
  | append_singleton l b ih =>
    rw [kept_snoc, List.length_append, ih, List.length_append, List.length_singleton,
      List.range_succ, List.countP_append, List.countP_singleton]
    split <;> rfl

/-- A kept element, at its new position. -/
theorem getElem?_kept {keep : Nat → Bool} {l : List β} {j : Nat} {b : β} :
    (kept keep l)[j]? = some b ↔
      ∃ i, l[i]? = some b ∧ keep i = true ∧ j = (List.range i).countP keep := by
  induction l using List.reverseRecOn with
  | nil => simp [kept]
  | append_singleton l c ih =>
    rw [kept_snoc]
    constructor
    · intro h
      rw [List.getElem?_append] at h
      split at h
      · obtain ⟨i, hi, hkeep, hj⟩ := ih.1 h
        exact ⟨i, by rwa [List.getElem?_append_left (List.getElem?_eq_some_iff.1 hi).1], hkeep, hj⟩
      · next hlt =>
        split at h
        · next hkeep =>
          obtain ⟨hzero, rfl⟩ : j - (kept keep l).length = 0 ∧ c = b := by
            simpa using List.getElem?_eq_some_iff.1 h
          refine ⟨l.length, by simp, hkeep, ?_⟩
          rw [← length_kept]
          omega
        · cases h
    · rintro ⟨i, hi, hkeep, rfl⟩
      rw [getElem?_snoc] at hi
      split at hi
      · next heq =>
        subst heq
        obtain rfl := Option.some.inj hi
        rw [if_pos hkeep, ← length_kept]
        simp
      · have hold := ih.2 ⟨i, hi, hkeep, rfl⟩
        rwa [List.getElem?_append_left (List.getElem?_eq_some_iff.1 hold).1]

theorem kept_sublist (keep : Nat → Bool) (l : List β) : (kept keep l).Sublist l := by
  have hmap : l.zipIdx.map (·.1) = l := by simp
  conv_rhs => rw [← hmap]
  exact List.filter_sublist.map _

theorem kept_of_all {keep : Nat → Bool} {l : List β} (h : ∀ i < l.length, keep i = true) :
    kept keep l = l := by
  have hall : l.zipIdx.filter (fun x => keep x.2) = l.zipIdx :=
    List.filter_eq_self.2 fun x hx => h _ (List.snd_lt_of_mem_zipIdx hx)
  rw [kept, hall]
  simp

/-- What is kept, where all that matters is kept. -/
theorem filterMap_kept {γ : Type} {keep : Nat → Bool} {l : List β} {f g : β → Option γ}
    (h : ∀ x ∈ l.zipIdx, if keep x.2 then f x.1 = g x.1 else g x.1 = none) :
    (kept keep l).filterMap f = l.filterMap g := by
  have hmap : l.zipIdx.map (·.1) = l := by simp
  conv_rhs => rw [← hmap]
  rw [kept, List.filterMap_map, List.filterMap_map, List.filterMap_filter]
  refine List.filterMap_congr fun x hx => ?_
  have hx := h x hx
  split at hx
  · next hkeep => simp [hkeep, hx]
  · next hkeep => simp [hkeep, hx]

theorem countP_range_lt {keep : Nat → Bool} {i j : Nat} (hij : i < j) (hi : keep i = true) :
    (List.range i).countP keep < (List.range j).countP keep := by
  induction j with
  | zero => omega
  | succ j ih =>
    rw [List.range_succ, List.countP_append]
    rcases Nat.lt_succ_iff_lt_or_eq.1 hij with hij | rfl
    · exact Nat.lt_of_lt_of_le (ih hij) (Nat.le_add_right _ _)
    · simp [hi]

end

/-! ## Live nodes -/

namespace Function

theorem mark_cons (n : Node) (id : Nat) (rest : List (Node × Nat)) : mark ((n, id) :: rest) =
    if n.op.isSink || (mark rest).contains id then id :: (n.producers ++ mark rest) else mark rest :=
  rfl

theorem sink_mem_mark {l : List (Node × Nat)} {n : Node} {id : Nat} (h : (n, id) ∈ l)
    (hsink : n.op.isSink = true) : id ∈ mark l := by
  induction l with
  | nil => cases h
  | cons x l ih =>
    obtain ⟨m, j⟩ := x
    rw [mark_cons]
    rcases List.mem_cons.1 h with heq | h
    · obtain ⟨rfl, rfl⟩ := Prod.mk.inj heq
      simp [hsink]
    · split
      · simp [ih h]
      · exact ih h

/-- Where nodes read only nodes before them, what a live node reads is live. -/
theorem producers_mem_mark {nodes : List Node} {k : Nat}
    (hearlier : ∀ x ∈ nodes.zipIdx k, ∀ id ∈ x.1.producers, id < x.2) {n : Node} {id : Nat}
    (h : (n, id) ∈ nodes.zipIdx k) (hlive : id ∈ mark (nodes.zipIdx k)) {p : Nat}
    (hp : p ∈ n.producers) : p ∈ mark (nodes.zipIdx k) := by
  induction nodes generalizing k with
  | nil => cases h
  | cons m nodes ih =>
    rw [List.zipIdx_cons] at h hlive hearlier ⊢
    rw [mark_cons] at hlive ⊢
    have hrest := fun h hlive => ih (k := k + 1)
      (fun x hx => hearlier x (List.mem_cons_of_mem _ hx)) h hlive
    rcases List.mem_cons.1 h with heq | h
    · obtain ⟨rfl, rfl⟩ := Prod.mk.inj heq
      split
      · simp [hp]
      · next hdead =>
        rw [if_neg hdead] at hlive
        simp [hlive] at hdead
    · have hlt : k < id := Nat.lt_of_succ_le (List.le_snd_of_mem_zipIdx h)
      split
      · next hkeep =>
        rw [if_pos hkeep, List.mem_cons, List.mem_append] at hlive
        rcases hlive with rfl | hmem | hlive
        · exact absurd hlt (Nat.lt_irrefl _)
        · exact absurd (hearlier (m, k) List.mem_cons_self _ hmem) (Nat.not_lt.2 (Nat.le_of_lt hlt))
        · simp [hrest h hlive]
      · next hdead =>
        rw [if_neg hdead] at hlive
        exact hrest h hlive

end Function

/-! ## Elimination -/

variable {α : Type}

/-- The node after the nodes it reads have got new numbers. -/
def Node.renumber (number : Nat → Nat) (n : Node) : Node :=
  { n with inputs := n.inputs.map (.renumber number) }

theorem Node.renumber_of_fixed {number : Nat → Nat} {n : Node}
    (h : ∀ {i r : Nat}, Value.node i r ∈ n.inputs → number i = i) : n.renumber number = n := by
  have hinputs : n.inputs.map (.renumber number) = n.inputs := by
    refine (List.map_congr_left fun v hv => ?_).trans (List.map_id _)
    cases v with
    | node i r => exact congrArg (Value.node · r) (h hv)
    | storage ref => rfl
  rw [renumber, hinputs]

/-- Nodes before which all are live keep their number. -/
theorem Function.newNumber_of_live {live : List Nat} {i : Nat} (h : ∀ j < i, j ∈ live) :
    newNumber live i = i := by
  rw [newNumber, List.countP_eq_length.2 fun j hj => by simpa using h j (List.mem_range.1 hj),
    List.length_range]

theorem Function.storage_mem_renumber {number : Nat → Nat} {n : Node} {ref : StorageRef} :
    Value.storage ref ∈ (n.renumber number).inputs ↔ Value.storage ref ∈ n.inputs := by
  simp only [Node.renumber, List.mem_map]
  constructor
  · rintro ⟨v, hv, heq⟩
    cases v with
    | node i r => cases heq
    | storage ref' =>
      obtain rfl := Value.storage.inj heq
      exact hv
  · exact fun h => ⟨_, h, rfl⟩

theorem Function.nodes_eliminateDead (f : Function) : f.eliminateDead.nodes =
    (kept f.live.contains f.nodes).map (.renumber (newNumber f.live)) := by
  simp only [eliminateDead, kept, List.map_map]
  rfl

/-- The world without its dead nodes. -/
def World.eliminateDead (w : World α) : World α :=
  ⟨w.function.eliminateDead,
    { w.valuation with values := kept w.function.live.contains w.valuation.values }⟩

variable {s : Storage} {reads : StorageRef → Prop} {w : World α}

theorem getElem?_eliminateDead {i : Nat} {n : Node} (hn : w.function.nodes[i]? = some n)
    (hlive : i ∈ w.function.live) :
    w.eliminateDead.function.nodes[Function.newNumber w.function.live i]? =
      some (n.renumber (Function.newNumber w.function.live)) := by
  have hget : (kept w.function.live.contains w.function.nodes)[
      Function.newNumber w.function.live i]? = some n :=
    getElem?_kept.2 ⟨i, hn, by simpa using hlive, rfl⟩
  rw [World.eliminateDead, Function.nodes_eliminateDead, List.getElem?_map, hget]
  rfl

/-- The value of a live node, under its new number. -/
theorem World.Holds.eliminateDead {v : Value} {t : Tensor α} (h : w.Holds s reads v t)
    (hlive : ∀ {i : Nat}, v.producer? = some i → i ∈ w.function.live) :
    w.eliminateDead.Holds s reads (v.renumber (Function.newNumber w.function.live)) t := by
  cases v with
  | storage ref => exact ⟨h.value, h.type, h.filled, h.read⟩
  | node i r =>
    obtain ⟨n, hn, hr⟩ := Function.valueType_node_ok_iff.1 h.type
    obtain ⟨ts, hts, ht⟩ := Option.bind_eq_some_iff.1 h.value
    refine ⟨Option.bind_eq_some_iff.2 ⟨ts, ?_, ht⟩, Function.valueType_node_ok_iff.2
      ⟨_, getElem?_eliminateDead hn (hlive rfl), hr⟩, h.filled, nofun⟩
    exact getElem?_kept.2 ⟨i, hts, by simpa using hlive rfl, rfl⟩

variable [Scalar α]

/-- The producers of a live node are live. -/
theorem Solved.producer_live (h : Solved s reads w) {i : Nat} {n : Node}
    (hn : w.function.nodes[i]? = some n) (hlive : i ∈ w.function.live) {p : Nat}
    (hp : p ∈ n.producers) : p ∈ w.function.live := by
  refine Function.producers_mem_mark (fun x hx id hid => ?_)
    (List.mem_zipIdx_iff_getElem?.2 hn) hlive hp
  obtain ⟨operands, results, hnode⟩ := h.node (List.mem_zipIdx_iff_getElem?.1 hx)
  obtain ⟨r, hv⟩ := Node.mem_producers.1 hid
  exact hnode.earlier hv

theorem Solved.eliminateDead (h : Solved s reads w) : Solved s reads w.eliminateDead := by
  have hlength : w.eliminateDead.function.nodes.length =
      (kept w.function.live.contains w.function.nodes).length := by
    rw [World.eliminateDead, Function.nodes_eliminateDead, List.length_map]
  refine ⟨?_, fun {j n'} hn' => ?_⟩
  · rw [hlength, length_kept, ← h.length, ← length_kept]
    rfl
  · rw [World.eliminateDead, Function.nodes_eliminateDead, List.getElem?_map,
      Option.map_eq_some_iff] at hn'
    obtain ⟨n, hget, rfl⟩ := hn'
    obtain ⟨i, hn, hkeep, rfl⟩ := getElem?_kept.1 hget
    have hlive : i ∈ w.function.live := by simpa using hkeep
    obtain ⟨operands, results, hnode⟩ := h.node hn
    have hproducer {v : Value} {p : Nat} (hv : v ∈ n.inputs) (hp : v.producer? = some p) :
        p ∈ w.function.live :=
      h.producer_live hn hlive (List.mem_filterMap.2 ⟨v, hv, hp⟩)
    refine ⟨operands, results, ?_, fun {id r} hmem => ?_, ?_, hnode.typed,
      getElem?_kept.2 ⟨i, hnode.values, hkeep, rfl⟩, hnode.types, hnode.filled, hnode.computes⟩
    · rw [Node.renumber, List.forall₂_map_left_iff]
      refine forall₂_of_left (List.forall₂_same.2 fun _ _ => rfl) hnode.inputs ?_
      rintro v _ t hv rfl ht
      exact ht.eliminateDead fun hp => hproducer hv hp
    · obtain ⟨v, hv, hrenumber⟩ := List.mem_map.1 hmem
      cases v with
      | storage ref => cases hrenumber
      | node p r =>
        obtain ⟨rfl, rfl⟩ := Value.node.inj hrenumber
        exact countP_range_lt (hnode.earlier hv) (by simpa using hproducer hv rfl)
    · have hweight := hnode.weight
      simp only [Node.renumber, Function.hasWeight] at hweight ⊢
      split
      · next hop =>
        rw [hop] at hweight
        rw [List.getElem?_map]
        cases hin : n.inputs[1]? with
        | none => simp [hin] at hweight
        | some v => cases v <;> simp_all [Value.renumber, Value.storage?]
      · rfl

theorem Function.WritesUnread.eliminateDead {f : Function} (h : f.WritesUnread) :
    f.eliminateDead.WritesUnread := by
  have hwrites {n : Node} {ref : StorageRef} {number : Nat → Nat}
      (hw : Function.Writes (n.renumber number) ref) : Function.Writes n ref := by
    rcases hw with hop | ⟨p, hop, hin⟩
    · exact .inl hop
    · refine .inr ⟨p, hop, ?_⟩
      simp only [Node.renumber, List.getElem?_map, Option.map_eq_some_iff] at hin
      obtain ⟨v, hv, heq⟩ := hin
      cases v <;> cases heq
      exact hv
  rw [WritesUnread, Function.nodes_eliminateDead, List.pairwise_map]
  exact (h.sublist (kept_sublist ..)).imp fun hmn ref hw hmem =>
    hmn ref (hwrites hw) (storage_mem_renumber.1 hmem)

/-- Steps of descent are live, and they are handed the same gradients. -/
theorem Solved.handed_eliminateDead (h : Solved s reads w) :
    w.eliminateDead.function.handed w.eliminateDead.valuation =
      w.function.handed w.valuation := by
  rw [Function.handed, World.eliminateDead, Function.nodes_eliminateDead, List.filterMap_map]
  refine filterMap_kept fun x hx => ?_
  obtain ⟨n, i⟩ := x
  have hn := List.mem_zipIdx_iff_getElem?.1 hx
  by_cases hsgd : ∃ p v ref, n.op = .sgd p ∧ n.inputs = [v, .storage ref]
  · obtain ⟨p, v, ref, hop, hin⟩ := hsgd
    have hlive : i ∈ w.function.live := Function.sink_mem_mark hx (by simp [hop, Operator.isSink])
    obtain ⟨operands, results, hnode⟩ := h.node hn
    have hv : v ∈ n.inputs := by simp [hin]
    obtain ⟨t, -, ht⟩ := exists_right_of_forall₂ hnode.inputs hv
    have hvalue := (ht.eliminateDead fun hp =>
      h.producer_live hn hlive (List.mem_filterMap.2 ⟨v, hv, hp⟩)).value
    rw [if_pos (by simpa using hlive)]
    simp only [Function.comp_apply, Node.handed, Node.renumber, hop, hin, List.map_cons,
      List.map_nil, Value.renumber, ht.value]
    exact congrArg _ hvalue
  · have hno (p : Descent) (v : Value) (ref : StorageRef) (hop : n.op = .sgd p) :
        n.inputs ≠ [v, .storage ref] := fun hin => hsgd ⟨p, v, ref, hop, hin⟩
    rw [Node.handed_eq_none hno]
    split
    · refine Node.handed_eq_none fun p v ref hop hin => ?_
      obtain ⟨v₁, rest, hin₁, -, hrest⟩ := List.map_eq_cons_iff.1 hin
      obtain ⟨v₂, rfl, hv₂⟩ := List.map_eq_singleton_iff.1 hrest
      cases v₂ <;> cases hv₂
      exact hno p v₁ ref hop hin₁
    · rfl

end TensorCompiler
