import TensorCompiler.Graph.Function
import TensorCompiler.Proofs.Checks
import TensorCompiler.Proofs.Lists
import Mathlib.Data.List.Induction

/-!
Use-lists and the operands they stand for. The readers of a node are in ascending order, one entry
for each operand (`pairwise_readers`, `count_readers`). Wiring a node enters it at the ends of the
lists of the nodes it reads, which is where it stands among their readers (`users_push`,
`readers_push`); so lists that agree with the operands go on agreeing (`Linked.push`,
`Wired.push`).
-/

namespace TensorCompiler

namespace Node

theorem mem_storageReads {n : Node} {ref : StorageRef} :
    ref ∈ n.storageReads ↔ Value.storage ref ∈ n.inputs := by
  rw [storageReads, List.mem_filterMap]
  constructor
  · rintro ⟨v, hv, href⟩
    cases v with
    | node id r => cases href
    | storage ref' =>
      obtain rfl := Option.some.inj href
      exact hv
  · exact fun hv => ⟨_, hv, rfl⟩

theorem mem_storageRefs_of_read {n : Node} {ref : StorageRef}
    (h : Value.storage ref ∈ n.inputs) : ref ∈ n.storageRefs :=
  List.mem_append_left _ (mem_storageReads.2 h)

theorem mem_producers {n : Node} {p : Nat} :
    p ∈ n.producers ↔ ∃ r, Value.node p r ∈ n.inputs := by
  rw [producers, List.mem_filterMap]
  constructor
  · rintro ⟨v, hv, hp⟩
    cases v with
    | storage ref => cases hp
    | node id r =>
      obtain rfl := Option.some.inj hp
      exact ⟨r, hv⟩
  · rintro ⟨r, hv⟩
    exact ⟨_, hv, rfl⟩

end Node

namespace UseLists

theorem users_insert (uses : UseLists) (i j : Nat) (l : List Nat) :
    users (uses.insert i l) j = if i = j then l else users uses j := by
  simp only [users, IdMap.get?_insert]
  split <;> rfl

theorem users_enter (uses : UseLists) (producers : List Nat) (reader id : Nat) :
    users (enter uses producers reader) id =
      users uses id ++ List.replicate (producers.count id) reader := by
  induction producers generalizing uses with
  | nil => simp [enter]
  | cons p producers ih =>
    have hstep : enter uses (p :: producers) reader =
        enter (uses.insert p (users uses p ++ [reader])) producers reader := rfl
    rw [hstep, ih, users_insert]
    by_cases hp : p = id
    · subst hp
      rw [if_pos rfl, List.count_cons_self, List.append_assoc, List.singleton_append,
        ← List.replicate_succ]
    · rw [if_neg hp, List.count_cons_of_ne hp]

theorem ofNodes_snoc (nodes : List Node) (n : Node) :
    ofNodes (nodes ++ [n]) = wire (ofNodes nodes) n.producers nodes.length := by
  rw [ofNodes, List.zipIdx_append, List.foldl_append, Nat.zero_add]
  rfl

end UseLists

namespace Function

variable {f : Function} {n : Node} {id j : Nat}

@[simp] theorem nodes_push (f : Function) (n : Node) : (f.push n).nodes = f.nodes ++ [n] := rfl

@[simp] theorem size_push (f : Function) (n : Node) : (f.push n).size = f.size + 1 :=
  List.length_append

/-! ## Readers -/

theorem mem_readers : j ∈ f.readers id ↔ ∃ n, f.nodes[j]? = some n ∧ id ∈ n.producers := by
  simp only [readers, List.mem_flatMap, List.mem_replicate]
  constructor
  · rintro ⟨⟨n, i⟩, hn, hcount, rfl⟩
    exact ⟨n, List.mem_zipIdx_iff_getElem?.1 hn,
      List.count_pos_iff.1 (Nat.pos_of_ne_zero hcount)⟩
  · rintro ⟨n, hn, hmem⟩
    exact ⟨(n, j), List.mem_zipIdx_iff_getElem?.2 hn,
      Nat.pos_iff_ne_zero.1 (List.count_pos_iff.2 hmem), rfl⟩

/-- The readers depend on the nodes alone. -/
theorem readers_snoc {g : Function} (h : g.nodes = f.nodes ++ [n]) (id : Nat) :
    g.readers id = f.readers id ++ List.replicate (n.producers.count id) f.size := by
  simp only [readers, size, h]
  rw [List.zipIdx_append, List.flatMap_append, List.zipIdx_singleton, List.flatMap_singleton,
    Nat.zero_add]

theorem readers_push (f : Function) (n : Node) (id : Nat) :
    (f.push n).readers id = f.readers id ++ List.replicate (n.producers.count id) f.size :=
  readers_snoc rfl id

theorem readers_lt_size (hj : j ∈ f.readers id) : j < f.size := by
  obtain ⟨n, hn, -⟩ := mem_readers.1 hj
  exact (List.getElem?_eq_some_iff.1 hn).1

/-- A node stands among the readers of another as often as it has it as an operand. -/
theorem count_readers (f : Function) (id j : Nat) :
    (f.readers id).count j = ((f.nodes[j]?).map (·.producers.count id)).getD 0 := by
  obtain ⟨name, nodes, uses, names⟩ := f
  induction nodes using List.reverseRecOn with
  | nil => rfl
  | append_singleton nodes n ih =>
    have hsnoc : readers ⟨name, nodes ++ [n], uses, names⟩ id =
        readers ⟨name, nodes, uses, names⟩ id ++ List.replicate (n.producers.count id) nodes.length :=
      readers_snoc rfl id
    rw [hsnoc, List.count_append, ih, getElem?_snoc, List.count_replicate]
    by_cases hj : j = nodes.length
    · simp [hj]
    · have hne : nodes.length ≠ j := Ne.symm hj
      simp [hj, hne]

theorem pairwise_readers (f : Function) (id : Nat) : (f.readers id).Pairwise (· ≤ ·) := by
  obtain ⟨name, nodes, uses, names⟩ := f
  induction nodes using List.reverseRecOn with
  | nil => exact .nil
  | append_singleton nodes n ih =>
    have hsnoc : readers ⟨name, nodes ++ [n], uses, names⟩ id =
        readers ⟨name, nodes, uses, names⟩ id ++ List.replicate (n.producers.count id) nodes.length :=
      readers_snoc rfl id
    rw [hsnoc, List.pairwise_append]
    refine ⟨ih, List.pairwise_replicate.2 (.inr (Nat.le_refl _)), fun i hi k hk => ?_⟩
    rw [List.eq_of_mem_replicate hk]
    exact Nat.le_of_lt (readers_lt_size hi)

/-! ## Recorded readers -/

theorem users_push (f : Function) (n : Node) (id : Nat) : (f.push n).users id =
    if id = f.size then [] else f.users id ++ List.replicate (n.producers.count id) f.size := by
  rw [users, push, UseLists.wire, UseLists.users_insert, UseLists.users_enter]
  exact if_congr eq_comm rfl rfl

/-- Every node reads only nodes before it. -/
def ReadsEarlier (f : Function) : Prop :=
  ∀ ⦃i : Nat⦄ ⦃n : Node⦄, f.nodes[i]? = some n → ∀ p ∈ n.producers, p < i

theorem readers_eq_nil (hf : f.ReadsEarlier) (hid : f.size ≤ id) : f.readers id = [] := by
  refine List.eq_nil_iff_forall_not_mem.2 fun j hj => ?_
  obtain ⟨n, hn, hmem⟩ := mem_readers.1 hj
  have hearlier := hf hn id hmem
  have hlt := readers_lt_size hj
  omega

/-- The use-list of every node names its readers, in some order. -/
def Linked (f : Function) : Prop := ∀ id < f.size, (f.users id).Perm (f.readers id)

/-- The use-list of every node is the list of its readers. -/
def Wired (f : Function) : Prop := ∀ id < f.size, f.users id = f.readers id

theorem Wired.linked (h : f.Wired) : f.Linked := fun id hid => .of_eq (h id hid)

/-- The lists of the old nodes grow alike, and those of the new node are empty. -/
theorem push_users_readers (hf : f.ReadsEarlier) (hn : ∀ p ∈ n.producers, p < f.size)
    (hid : id < (f.push n).size) : ((f.push n).users id = [] ∧ (f.push n).readers id = []) ∨
      id < f.size ∧ ∃ l, (f.push n).users id = f.users id ++ l ∧
        (f.push n).readers id = f.readers id ++ l := by
  rw [users_push, readers_push]
  by_cases hlast : id = f.size
  · left
    have hnone : n.producers.count id = 0 :=
      List.count_eq_zero.2 fun hmem => Nat.lt_irrefl _ (hlast ▸ hn id hmem)
    rw [if_pos hlast, hnone, readers_eq_nil hf (Nat.le_of_eq hlast.symm)]
    exact ⟨rfl, rfl⟩
  · right
    rw [size_push] at hid
    rw [if_neg hlast]
    exact ⟨by omega, _, rfl, rfl⟩

theorem Linked.push (h : f.Linked) (hf : f.ReadsEarlier) (hn : ∀ p ∈ n.producers, p < f.size) :
    (f.push n).Linked := by
  intro id hid
  obtain ⟨husers, hreaders⟩ | ⟨hid, l, husers, hreaders⟩ := push_users_readers hf hn hid
  · rw [husers, hreaders]
  · rw [husers, hreaders]
    exact (h id hid).append_right l

theorem Wired.push (h : f.Wired) (hf : f.ReadsEarlier) (hn : ∀ p ∈ n.producers, p < f.size) :
    (f.push n).Wired := by
  intro id hid
  obtain ⟨husers, hreaders⟩ | ⟨hid, l, husers, hreaders⟩ := push_users_readers hf hn hid
  · rw [husers, hreaders]
  · rw [husers, hreaders, h id hid]

/-- Use-lists that are made anew are those of the operands. -/
theorem wired_ofNodes {name : String} {nodes : List Node}
    (h : ReadsEarlier { name, nodes }) : Wired { name, nodes } := by
  induction nodes using List.reverseRecOn with
  | nil => nofun
  | append_singleton nodes n ih =>
    have hpush : ({ name, nodes := nodes ++ [n] } : Function) = ({ name, nodes } : Function).push n :=
      congrArg₂ (Function.mk name (nodes ++ [n])) (UseLists.ofNodes_snoc nodes n) List.map_append
    have hold : ReadsEarlier { name, nodes } := fun i m hm =>
      h (by rwa [List.getElem?_append_left (List.getElem?_eq_some_iff.1 hm).1])
    have hn : ∀ p ∈ n.producers, p < nodes.length := h (by simp)
    rw [hpush]
    exact (ih hold).push hold hn

end Function

end TensorCompiler
