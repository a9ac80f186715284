import TensorCompiler.Proofs.Graph.DeadNodes
import TensorCompiler.Proofs.Graph.UseLists

/-!
What the elimination of dead nodes keeps, for functions whose nodes read only nodes before them. The
live nodes are those from which a sink is reached (`mem_live_iff`); each keeps its place in the order
under a new number (`getElem?_nodes_eliminateDead`). Use-lists are those of the operands again
(`Linked.eliminateDead`, `Wired.eliminateDead`), and nothing is left to eliminate
(`ReadsEarlier.deadCount_eliminateDead`).
-/

namespace TensorCompiler.Function

variable {f : Function}

/-! ## Live nodes -/

/-- A live node is a sink, or a live node reads it. -/
theorem reader_of_mark (l : List (Node × Nat)) {x : Nat} (hx : x ∈ mark l) :
    (∃ n, (n, x) ∈ l ∧ n.op.isSink = true) ∨
      ∃ m j, (m, j) ∈ l ∧ j ∈ mark l ∧ x ∈ m.producers := by
  induction l with
  | nil => cases hx
  | cons y l ih =>
    obtain ⟨n, id⟩ := y
    have hrest (hmem : x ∈ mark l) : (∃ m, (m, x) ∈ (n, id) :: l ∧ m.op.isSink = true) ∨
        ∃ m j, (m, j) ∈ (n, id) :: l ∧ j ∈ mark ((n, id) :: l) ∧ x ∈ m.producers := by
      rcases ih hmem with ⟨m, hm, hsink⟩ | ⟨m, j, hm, hj, hp⟩
      · exact .inl ⟨m, List.mem_cons_of_mem _ hm, hsink⟩
      · refine .inr ⟨m, j, List.mem_cons_of_mem _ hm, ?_, hp⟩
        rw [mark_cons]
        split
        · simp [hj]
        · exact hj
    by_cases hkeep : (n.op.isSink || (mark l).contains id) = true
    · have hmark : mark ((n, id) :: l) = id :: (n.producers ++ mark l) := by
        rw [mark_cons, if_pos hkeep]
      rw [hmark, List.mem_cons, List.mem_append] at hx
      rcases hx with rfl | hx | hx
      · rcases Bool.or_eq_true_iff.1 hkeep with hsink | hlive
        · exact .inl ⟨n, List.mem_cons_self, hsink⟩
        · exact hrest (by simpa using hlive)
      · exact .inr ⟨n, id, List.mem_cons_self, by simp [hmark], hx⟩
      · exact hrest hx
    · rw [mark_cons, if_neg hkeep] at hx
      exact hrest hx

theorem ReadsEarlier.producer_live (h : f.ReadsEarlier) {i : Nat} {n : Node}
    (hn : f.nodes[i]? = some n) (hlive : i ∈ f.live) {p : Nat} (hp : p ∈ n.producers) :
    p ∈ f.live :=
  producers_mem_mark (fun _ hx => h (List.mem_zipIdx_iff_getElem?.1 hx))
    (List.mem_zipIdx_iff_getElem?.2 hn) hlive hp

/-- A sink is reached from the node: the node is one, or one is reached from a node that reads it. -/
inductive Feeds (f : Function) : Nat → Prop
  | sink {i : Nat} {n : Node} : f.nodes[i]? = some n → n.op.isSink = true → Feeds f i
  | read {i j : Nat} {n : Node} : f.nodes[j]? = some n → i ∈ n.producers → Feeds f j → Feeds f i

theorem ReadsEarlier.mem_live_iff (h : f.ReadsEarlier) {i : Nat} : i ∈ f.live ↔ f.Feeds i := by
  constructor
  · -- by induction from the last node back: what reads a node stands after it
    induction hk : f.size - i using Nat.strongRecOn generalizing i with
    | ind k ih =>
      intro hlive
      rcases reader_of_mark _ hlive with ⟨n, hn, hsink⟩ | ⟨m, j, hm, hj, hp⟩
      · exact .sink (List.mem_zipIdx_iff_getElem?.1 hn) hsink
      · have hm := List.mem_zipIdx_iff_getElem?.1 hm
        have hij := h hm i hp
        have hlt : j < f.size := (List.getElem?_eq_some_iff.1 hm).1
        exact .read hm hp (ih _ (by omega) rfl hj)
  · intro hfeeds
    induction hfeeds with
    | sink hn hsink => exact sink_mem_mark (List.mem_zipIdx_iff_getElem?.2 hn) hsink
    | read hn hp _ ih => exact h.producer_live hn ih hp

/-! ## Survivors -/

/-- The live node behind a node that is left. -/
theorem getElem?_nodes_eliminateDead {j : Nat} {m : Node} :
    f.eliminateDead.nodes[j]? = some m ↔ ∃ i n, f.nodes[i]? = some n ∧ i ∈ f.live ∧
      j = newNumber f.live i ∧ m = n.renumber (newNumber f.live) := by
  rw [nodes_eliminateDead, List.getElem?_map, Option.map_eq_some_iff]
  constructor
  · rintro ⟨n, hn, rfl⟩
    obtain ⟨i, hi, hkeep, rfl⟩ := getElem?_kept.1 hn
    exact ⟨i, n, hi, by simpa using hkeep, rfl, rfl⟩
  · rintro ⟨i, n, hi, hlive, rfl, rfl⟩
    exact ⟨n, getElem?_kept.2 ⟨i, hi, by simpa using hlive, rfl⟩, rfl⟩

/-- Live nodes keep their order. -/
theorem newNumber_lt {i j : Nat} (hi : i ∈ f.live) (hij : i < j) :
    newNumber f.live i < newNumber f.live j :=
  countP_range_lt hij (by simpa using hi)

/-- What reaches a sink still does. -/
theorem Feeds.eliminateDead (h : f.ReadsEarlier) {i : Nat} (hi : f.Feeds i) :
    f.eliminateDead.Feeds (newNumber f.live i) := by
  induction hi with
  | sink hn hsink =>
    have hlive := h.mem_live_iff.2 (.sink hn hsink)
    exact .sink (getElem?_nodes_eliminateDead.2 ⟨_, _, hn, hlive, rfl, rfl⟩) hsink
  | read hn hp hj ih =>
    have hlive := h.mem_live_iff.2 hj
    refine .read (getElem?_nodes_eliminateDead.2 ⟨_, _, hn, hlive, rfl, rfl⟩) ?_ ih
    obtain ⟨r, hv⟩ := Node.mem_producers.1 hp
    exact Node.mem_producers.2 ⟨r, List.mem_map.2 ⟨_, hv, rfl⟩⟩

theorem mem_names_iff {name : String} :
    name ∈ f.nodes.map (·.name) ↔ ∃ (i : Nat) (n : Node), f.nodes[i]? = some n ∧ n.name = name := by
  simp only [List.mem_map]
  constructor
  · rintro ⟨n, hn, rfl⟩
    obtain ⟨i, hi⟩ := List.mem_iff_getElem?.1 hn
    exact ⟨i, n, hi, rfl⟩
  · rintro ⟨i, n, hn, rfl⟩
    exact ⟨n, List.mem_of_getElem? hn, rfl⟩

/-- The names that elimination gives back are those of the dead nodes. -/
theorem mem_deadNames {name : String} : name ∈ f.deadNames ↔
    ∃ (i : Nat) (n : Node), f.nodes[i]? = some n ∧ i ∉ f.live ∧ n.name = name := by
  simp only [deadNames, List.mem_map, List.mem_filter, Bool.not_eq_true', List.contains_eq_mem,
    decide_eq_false_iff_not]
  constructor
  · rintro ⟨⟨n, i⟩, ⟨hn, hdead⟩, hname⟩
    exact ⟨i, n, List.mem_zipIdx_iff_getElem?.1 hn, hdead, hname⟩
  · rintro ⟨i, n, hn, hdead, hname⟩
    exact ⟨(n, i), ⟨List.mem_zipIdx_iff_getElem?.2 hn, hdead⟩, hname⟩

/-- Where names are distinct, those that are left are those that are not given back. -/
theorem mem_names_eliminateDead (hnames : (f.nodes.map (·.name)).Nodup) {name : String} :
    name ∈ f.eliminateDead.nodes.map (·.name) ↔
      name ∈ f.nodes.map (·.name) ∧ name ∉ f.deadNames := by
  rw [mem_names_iff, mem_names_iff, mem_deadNames]
  constructor
  · rintro ⟨j, m, hm, rfl⟩
    obtain ⟨i, n, hn, hi, rfl, rfl⟩ := getElem?_nodes_eliminateDead.1 hm
    refine ⟨⟨i, n, hn, rfl⟩, ?_⟩
    rintro ⟨k, n', hn', hk, (heq : n'.name = n.name)⟩
    have hlt : i < (f.nodes.map (·.name)).length := by
      simpa using (List.getElem?_eq_some_iff.1 hn).1
    have hik : i = k := (List.getElem?_inj hlt hnames).1 (by simpa [hn, hn'] using heq.symm)
    exact hk (hik ▸ hi)
  · rintro ⟨⟨i, n, hn, rfl⟩, hleft⟩
    have hi : i ∈ f.live := by
      by_contra hi
      exact hleft ⟨i, n, hn, hi, rfl⟩
    exact ⟨_, _, getElem?_nodes_eliminateDead.2 ⟨i, n, hn, hi, rfl, rfl⟩, rfl⟩

/-- The node `m` of `f'` is the node of `f` with this number: the nodes of `f'` are those of `f` that feed
a sink, in order, and read the same values of the same nodes. If the names taken were those of the nodes
of `f`, they are now those of the nodes of `f'`. -/
structure Compacts (f f' : Function) (number : Nat → Nat) : Prop where
  name : f'.name = f.name
  increasing : ∀ i j, f.Feeds i → f.Feeds j → i < j → number i < number j
  nodes : ∀ j m, f'.nodes[j]? = some m ↔
    ∃ i n, f.nodes[i]? = some n ∧ f.Feeds i ∧ j = number i ∧ m = n.renumber number
  operands : ∀ i n p, f.nodes[i]? = some n → f.Feeds i → p ∈ n.producers → f.Feeds p
  names : (∀ name, name ∈ f.nodeNames ↔ name ∈ f.nodes.map (·.name)) →
    ∀ name, name ∈ f'.nodeNames ↔ name ∈ f'.nodes.map (·.name)

theorem ReadsEarlier.compacts (h : f.ReadsEarlier) (hnames : (f.nodes.map (·.name)).Nodup) :
    f.Compacts f.eliminateDead (newNumber f.live) where
  name := rfl
  increasing i j hi _ := newNumber_lt (h.mem_live_iff.2 hi)
  nodes j m := by simp only [getElem?_nodes_eliminateDead, h.mem_live_iff]
  operands i n p hn hi hp := .read hn hp hi
  names hexact name := by
    rw [mem_names_eliminateDead hnames, ← hexact]
    exact Names.mem_release

theorem ReadsEarlier.eliminateDead (h : f.ReadsEarlier) : f.eliminateDead.ReadsEarlier := by
  intro j m hm p hp
  obtain ⟨i, n, hn, hlive, rfl, rfl⟩ := getElem?_nodes_eliminateDead.1 hm
  obtain ⟨r, hv⟩ := Node.mem_producers.1 hp
  obtain ⟨v, hmem, hrenumber⟩ := List.mem_map.1 hv
  cases v with
  | storage ref => cases hrenumber
  | node q r' =>
    obtain ⟨rfl, rfl⟩ := Value.node.inj hrenumber
    have hq : q ∈ n.producers := Node.mem_producers.2 ⟨_, hmem⟩
    exact newNumber_lt (h.producer_live hn hlive hq) (h hn q hq)

theorem size_eliminateDead (f : Function) :
    f.eliminateDead.size = (List.range f.size).countP f.live.contains := by
  rw [size, nodes_eliminateDead, List.length_map, length_kept]
  rfl

/-- Elimination leaves as many nodes as there were just when all are live. -/
theorem size_eliminateDead_eq_iff :
    f.eliminateDead.size = f.size ↔ ∀ i < f.size, i ∈ f.live := by
  have hcount := List.countP_eq_length (p := f.live.contains) (l := List.range f.size)
  rw [size_eliminateDead]
  simpa using hcount

/-- How many nodes are removed: as many as are dead. -/
theorem deadCount_eq (f : Function) :
    f.deadCount = ((List.range f.size).filter fun i => !f.live.contains i).length := by
  have hsplit := List.length_eq_countP_add_countP f.live.contains (l := List.range f.size)
  rw [List.length_range] at hsplit
  rw [deadCount, size_eliminateDead, ← List.countP_eq_length_filter]
  exact Nat.sub_eq_of_eq_add' (by simpa using hsplit)

/-- Where every node is live, elimination changes nothing. -/
theorem ReadsEarlier.eliminateDead_eq (h : f.ReadsEarlier) (hsize : f.eliminateDead.size = f.size) :
    f.eliminateDead = f := by
  have hlive := size_eliminateDead_eq_iff.1 hsize
  have hkept : kept f.live.contains f.nodes = f.nodes :=
    kept_of_all fun i hi => by simpa using hlive i hi
  have hnodes : f.eliminateDead.nodes = f.nodes := by
    rw [nodes_eliminateDead, hkept]
    refine (List.map_congr_left fun n hn => ?_).trans (List.map_id _)
    obtain ⟨i, hi⟩ := List.getElem?_of_mem hn
    have hlt : i < f.size := (List.getElem?_eq_some_iff.1 hi).1
    refine Node.renumber_of_fixed fun hread => newNumber_of_live fun k hk => hlive k ?_
    exact Nat.lt_trans hk (Nat.lt_trans (h hi _ (Node.mem_producers.2 ⟨_, hread⟩)) hlt)
  have huses : f.eliminateDead.uses = f.uses := if_pos hsize
  have hnames : f.eliminateDead.nodeNames = f.nodeNames := by
    have hdead : f.deadNames = [] := by
      refine List.eq_nil_iff_forall_not_mem.2 fun name hname => ?_
      obtain ⟨i, n, hn, hdead, -⟩ := mem_deadNames.1 hname
      exact hdead (hlive i (List.getElem?_eq_some_iff.1 hn).1)
    show Names.release f.nodeNames f.deadNames = f.nodeNames
    rw [hdead, Names.release_nil]
  calc f.eliminateDead
    _ = ⟨f.eliminateDead.name, f.eliminateDead.nodes, f.eliminateDead.uses,
        f.eliminateDead.nodeNames⟩ := rfl
    _ = f := by rw [hnodes, huses, hnames]; rfl

/-- The use-lists are left as they are, or made anew. -/
theorem ReadsEarlier.eliminateDead_cases (h : f.ReadsEarlier) :
    f.eliminateDead = f ∨ f.eliminateDead.Wired := by
  by_cases hsize : f.eliminateDead.size = f.size
  · exact .inl (h.eliminateDead_eq hsize)
  · right
    have huses : f.eliminateDead.uses = .ofNodes f.eliminateDead.nodes := if_neg hsize
    have hwired : Wired { name := f.name, nodes := f.eliminateDead.nodes } :=
      wired_ofNodes h.eliminateDead
    rw [← huses] at hwired
    exact hwired

theorem Linked.eliminateDead (h : f.Linked) (hf : f.ReadsEarlier) : f.eliminateDead.Linked := by
  rcases hf.eliminateDead_cases with heq | hwired
  · rwa [heq]
  · exact hwired.linked

theorem Wired.eliminateDead (h : f.Wired) (hf : f.ReadsEarlier) : f.eliminateDead.Wired := by
  rcases hf.eliminateDead_cases with heq | hwired
  · rwa [heq]
  · exact hwired

/-! ## Elimination once more -/

theorem ReadsEarlier.size_eliminateDead_twice (h : f.ReadsEarlier) :
    f.eliminateDead.eliminateDead.size = f.eliminateDead.size := by
  refine size_eliminateDead_eq_iff.2 fun j hj => ?_
  obtain ⟨i, n, hn, hlive, rfl, -⟩ :=
    getElem?_nodes_eliminateDead.1 (List.getElem?_eq_getElem hj)
  exact h.eliminateDead.mem_live_iff.2 ((h.mem_live_iff.1 hlive).eliminateDead h)

theorem ReadsEarlier.deadCount_eliminateDead (h : f.ReadsEarlier) :
    f.eliminateDead.deadCount = 0 := by
  rw [deadCount, h.size_eliminateDead_twice, Nat.sub_self]

end TensorCompiler.Function
