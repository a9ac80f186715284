import TensorCompiler.Proofs.Graph.Reshapes
import TensorCompiler.Proofs.Training.Total

/-!
The order of a training function. Its first step of descent comes after all of its source and all that
the rules have built. From there on it only adds up gradients and takes steps, one for each weight, and
no operand of these nodes shows elements of storage (`Function.DescendsLast`). Elimination of dead nodes
keeps this.
-/

namespace TensorCompiler

open Training

namespace Function

variable {s : Storage} {f g : Function}

/-- From its first step of descent on the function only adds up gradients and takes steps. Their
operands show no storage, except for the weights that the steps move; these are distinct. -/
structure DescendsLast (f : Function) : Prop where
  kinds : ∀ ⦃i j : Nat⦄ ⦃m n : Node⦄ ⦃p : Descent⦄, i ≤ j → f.nodes[i]? = some m → m.op = .sgd p →
    f.nodes[j]? = some n → IsSum n ∨ IsStep n
  own : ∀ ⦃i j k r : Nat⦄ ⦃m n : Node⦄ ⦃p : Descent⦄, i ≤ j → f.nodes[i]? = some m → m.op = .sgd p →
    f.nodes[j]? = some n → Value.node k r ∈ n.inputs → ∀ ref, ¬ f.Shows (.node k r) (.storage ref)
  distinct : ∀ ⦃i j : Nat⦄ ⦃m n : Node⦄ ⦃p q : Descent⦄ ⦃ref : StorageRef⦄, i < j →
    f.nodes[i]? = some m → m.op = .sgd p → Value.storage ref ∈ m.inputs → f.nodes[j]? = some n →
    n.op = .sgd q → Value.storage ref ∉ n.inputs

namespace DescendsLast

/-- The gradient of a step shows no storage. -/
theorem gradient_not_shows (h : f.DescendsLast) {j : Nat} {n : Node} {p : Descent} {v : Value}
    {ref : StorageRef} (hn : f.nodes[j]? = some n) (hop : n.op = .sgd p)
    (hin : n.inputs = [v, .storage ref]) : ∀ ref, ¬ f.Shows v (.storage ref) := by
  obtain ⟨hadd, -⟩ | ⟨_, k, r, _, -, hin'⟩ := h.kinds (Nat.le_refl j) hn hop hn
  · exact absurd (hadd.symm.trans hop) (by simp)
  · obtain ⟨rfl, -⟩ : v = .node k r ∧ _ := List.cons.inj (hin.symm.trans hin')
    exact h.own (Nat.le_refl j) hn hop hn (by simp [hin])

/-- Nor do the gradients that are added up from the first step on. -/
theorem summand_not_shows (h : f.DescendsLast) {i j : Nat} {m n : Node} {p : Descent} {v : Value}
    (hij : i ≤ j) (hm : f.nodes[i]? = some m) (hop : m.op = .sgd p) (hn : f.nodes[j]? = some n)
    (hsum : IsSum n) (hv : v ∈ n.inputs) : ∀ ref, ¬ f.Shows v (.storage ref) := by
  cases v with
  | node k r => exact h.own hij hm hop hn hv
  | storage ref =>
    have hread : ref ∈ n.storageReads := Node.mem_storageReads.2 hv
    rw [hsum.2] at hread
    cases hread

end DescendsLast

end Function

/-! ## The training function as built -/

namespace Training

variable {src : Source} {f : Function}

/-- What the pass has added shows no storage. -/
theorem Draft.not_shows (h : Draft src f) {v w : Value} (hshows : f.Shows v w) :
    ∀ {i r : Nat}, v = .node i r → src.function.size ≤ i → ∀ ref, w ≠ .storage ref := by
  induction hshows with
  | self v =>
    rintro i r rfl - ref
    nofun
  | @reshape id n shape v w hn hop hin _ ih =>
    rintro i r heq hi ref
    obtain ⟨rfl, -⟩ := Value.node.inj heq
    have hadded := (h.added hi hn).2
    rw [hop] at hadded
    obtain ⟨j, q, hin', hj⟩ := hadded
    obtain rfl : v = .node j q := by simpa [hin] using hin'
    exact ih rfl hj ref

/-- A node from the first step of descent on is one of the updates. -/
theorem mem_updates_of_sgd {quiet updates : List Node} (hnodes : f.nodes = quiet ++ updates)
    (hquiet : ∀ n ∈ quiet, ∀ p, n.op ≠ .sgd p) {i j : Nat} {m n : Node} {p : Descent} (hij : i ≤ j)
    (hm : f.nodes[i]? = some m) (hop : m.op = .sgd p) (hn : f.nodes[j]? = some n) :
    quiet.length ≤ j ∧ updates[j - quiet.length]? = some n := by
  rw [hnodes] at hm hn
  have hi : quiet.length ≤ i := by
    by_contra hlt
    rw [List.getElem?_append_left (Nat.not_le.1 hlt)] at hm
    exact hquiet m (List.mem_of_getElem? hm) p hop
  rw [List.getElem?_append_right (hi.trans hij)] at hn
  exact ⟨hi.trans hij, hn⟩

theorem Derived.descendsLast (h : Derived src f)
    (hrules : ∀ n ∈ src.function.nodes, n.op.hasRule = true) : f.DescendsLast := by
  obtain ⟨gradients, updates, hnodes, hgradients, hupdates⟩ := h.parts
  have hquiet (n : Node) (hn : n ∈ src.function.nodes ++ gradients) (p : Descent) :
      n.op ≠ .sgd p := by
    rcases List.mem_append.1 hn with hn | hn
    · exact not_sgd_of_hasRule (hrules n hn) p
    · rintro hop
      simpa [hop, Operator.isSink] using hgradients n hn
  refine ⟨fun i j m n p hij hm hop hn => ?_, fun i j k r m n p hij hm hop hn hin ref hshows => ?_,
    fun i j m n p q ref hij hm hop hmem hn hop' => ?_⟩
  · obtain ⟨-, hupdate⟩ := mem_updates_of_sgd hnodes hquiet hij hm hop hn
    exact hupdates.kinds n (List.mem_of_getElem? hupdate)
  · obtain ⟨hj, hupdate⟩ := mem_updates_of_sgd hnodes hquiet hij hm hop hn
    have hsize : src.function.size ≤ j := by
      rw [List.length_append] at hj
      exact Nat.le_of_add_right_le hj
    have hadded := (h.draft.added hsize hn).2
    have hk : src.function.size ≤ k := by
      rcases hupdates.kinds n (List.mem_of_getElem? hupdate) with ⟨hadd, -⟩ | ⟨_, _, _, _, hsgd, -⟩
      · rw [hadd] at hadded
        obtain ⟨k', r', heq, hk⟩ := hadded _ hin
        exact (Value.node.inj heq).1 ▸ hk
      · rw [hsgd] at hadded
        obtain ⟨k', r', w, hin', hk, -⟩ := hadded
        obtain ⟨rfl, rfl⟩ : k = k' ∧ r = r' := by simpa [hin'] using hin
        exact hk
    exact h.draft.not_shows hshows rfl hk ref rfl
  · obtain ⟨hi, hm'⟩ := mem_updates_of_sgd hnodes hquiet (Nat.le_refl i) hm hop hm
    obtain ⟨-, hn'⟩ := mem_updates_of_sgd hnodes hquiet hij.le hm hop hn
    obtain ⟨hlt, rfl⟩ := List.getElem?_eq_some_iff.1 hm'
    obtain ⟨hlt', rfl⟩ := List.getElem?_eq_some_iff.1 hn'
    refine List.pairwise_iff_getElem.1 hupdates.unread _ _ hlt hlt' (by omega) ref (.inr ⟨p, hop, ?_⟩)
    rcases hupdates.kinds _ (List.getElem_mem hlt) with ⟨hadd, -⟩ | ⟨q, k, r, w, -, hin⟩
    · exact absurd (hadd.symm.trans hop) (by simp)
    · rw [hin] at hmem ⊢
      obtain rfl : ref = w := by simpa using hmem
      rfl

end Training

/-! ## Without dead nodes -/

namespace Function

variable {s : Storage} {f g : Function}

theorem newNumber_inj {live : List Nat} {i j : Nat} (hi : i ∈ live) (hj : j ∈ live)
    (h : newNumber live i = newNumber live j) : i = j := by
  rcases Nat.lt_trichotomy i j with hlt | heq | hlt
  · exact absurd h (Nat.ne_of_lt (countP_range_lt hlt (by simpa using hi)))
  · exact heq
  · exact absurd h (Nat.ne_of_gt (countP_range_lt hlt (by simpa using hj)))

theorem le_of_newNumber_le {live : List Nat} {i j : Nat} (hj : j ∈ live)
    (h : newNumber live i ≤ newNumber live j) : i ≤ j := by
  by_contra hlt
  exact Nat.not_lt.2 h (countP_range_lt (Nat.not_le.1 hlt) (by simpa using hj))

theorem isSum_renumber {number : Nat → Nat} {n : Node} (h : IsSum n) :
    IsSum (n.renumber number) := by
  refine ⟨h.1, List.eq_nil_iff_forall_not_mem.2 fun ref href => ?_⟩
  have hread : ref ∈ n.storageReads :=
    Node.mem_storageReads.2 (storage_mem_renumber.1 (Node.mem_storageReads.1 href))
  rw [h.2] at hread
  cases hread

theorem isStep_renumber {number : Nat → Nat} {n : Node} (h : IsStep n) :
    IsStep (n.renumber number) := by
  obtain ⟨p, i, r, ref, hop, hin⟩ := h
  exact ⟨p, number i, r, ref, hop, by rw [Node.renumber, hin]; rfl⟩

/-- A chain of reshapes that is left was one before. -/
theorem Shows.of_eliminateDead (harena : f.Arena s) {v' w' : Value}
    (h : f.eliminateDead.Shows v' w') : ∀ {v : Value}, v' = v.renumber (newNumber f.live) →
      (∀ {i : Nat}, v.producer? = some i → i ∈ f.live) →
      ∃ w, w' = w.renumber (newNumber f.live) ∧ f.Shows v w := by
  induction h with
  | self v' =>
    rintro v rfl -
    exact ⟨v, rfl, .self v⟩
  | @reshape id' n' shape v₁' w' hn' hop hin _ ih =>
    intro v heq hlive
    obtain ⟨id, n, hn, hid, rfl, rfl⟩ := getElem?_nodes_eliminateDead.1 hn'
    cases v with
    | storage ref => cases heq
    | node i r =>
      obtain ⟨hnumber, rfl⟩ := Value.node.inj heq
      obtain rfl := newNumber_inj hid (hlive rfl) hnumber
      obtain ⟨v₁, hv₁, rfl⟩ := List.map_eq_singleton_iff.1 hin
      obtain ⟨w, rfl, hshows⟩ := ih rfl fun hp => harena.producer_live hn hid
        (List.mem_filterMap.2 ⟨v₁, by simp [hv₁], hp⟩)
      exact ⟨w, rfl, .reshape hn hop hv₁ hshows⟩

theorem DescendsLast.eliminateDead (h : f.DescendsLast) (harena : f.Arena s) :
    f.eliminateDead.DescendsLast := by
  refine ⟨fun i' j' m' n' p hij hm' hop hn' => ?_,
    fun i' j' k' r m' n' p hij hm' hop hn' hin ref hshows => ?_,
    fun i' j' m' n' p q ref hij hm' hop hmem hn' hop' hmem' => ?_⟩
  all_goals
    obtain ⟨i, m, hm, hi, rfl, rfl⟩ := getElem?_nodes_eliminateDead.1 hm'
    obtain ⟨j, n, hn, hj, rfl, rfl⟩ := getElem?_nodes_eliminateDead.1 hn'
  · exact (h.kinds (le_of_newNumber_le hj hij) hm hop hn).imp isSum_renumber isStep_renumber
  · obtain ⟨v, hv, heq⟩ := List.mem_map.1 hin
    obtain ⟨w, hw, hshows⟩ := hshows.of_eliminateDead harena heq.symm fun hp =>
      harena.producer_live hn hj (List.mem_filterMap.2 ⟨v, hv, hp⟩)
    cases v with
    | storage ref' => cases heq
    | node k r =>
      cases w with
      | node _ _ => cases hw
      | storage ref' => exact h.own (le_of_newNumber_le hj hij) hm hop hn hv ref' hshows
  · have hlt : i < j := by
      refine Nat.lt_of_le_of_ne (le_of_newNumber_le hj hij.le) ?_
      rintro rfl
      exact Nat.lt_irrefl _ hij
    exact h.distinct hlt hm hop (storage_mem_renumber.1 hmem) hn hop' (storage_mem_renumber.1 hmem')

theorem Shows.of_nodes (hnodes : g.nodes = f.nodes) {v w : Value} (h : g.Shows v w) :
    f.Shows v w := by
  induction h with
  | self v => exact .self v
  | reshape hn hop hin _ ih => exact .reshape (hnodes ▸ hn) hop hin ih

theorem DescendsLast.of_nodes (hnodes : g.nodes = f.nodes) (h : f.DescendsLast) :
    g.DescendsLast := by
  refine ⟨fun i j m n p hij hm hop hn => ?_, fun i j k r m n p hij hm hop hn hin ref hshows => ?_,
    fun i j m n p q ref hij hm hop hmem hn => ?_⟩
  all_goals rw [hnodes] at hm hn
  · exact h.kinds hij hm hop hn
  · exact h.own hij hm hop hn hin ref (hshows.of_nodes hnodes)
  · exact h.distinct hij hm hop hmem hn

end Function

end TensorCompiler
