import TensorCompiler.Proofs.Graph.Evolution
import TensorCompiler.Proofs.Graph.Operations

/-!
Names and numbers stay unambiguous (`Module.names_stay_unambiguous`). The record of the names that are
taken is kept beside the objects, and every operation has to keep the two in step: that they agree is an
invariant of one operation (`ExactNames.performed`), and so of all sequences of them. What is under a
number that has been issued changes only as `Module.Keeps` says.
-/

namespace TensorCompiler

namespace Module

variable {m m' m'' : Module} {operation : Operation} {id k : Nat} {f g : Function}
  {r : Option Nat}

/-! ## Functions after an operation -/

theorem Inserted.cases (h : m.Inserted m' f) (hg : m'.functions.get? k = some g) :
    (k = m.nextFunction ∧ ∃ name, g = { f with name }) ∨ m.functions.get? k = some g := by
  obtain ⟨name, -, hfunctions, -⟩ := h.function
  rw [hfunctions, IdMap.get?_insert] at hg
  split at hg
  · next heq => exact .inl ⟨heq.symm, name, (Option.some.inj hg).symm⟩
  · exact .inr hg

theorem Replaced.cases (h : m.Replaced m' id f) (hg : m'.functions.get? k = some g) :
    (k = id ∧ g = f) ∨ m.functions.get? k = some g := by
  rw [h.functions, IdMap.get?_insert] at hg
  split at hg
  · next heq => exact .inl ⟨heq.symm, (Option.some.inj hg).symm⟩
  · exact .inr hg

theorem Erased.kept (h : m.Erased m' id f) (hg : m'.functions.get? k = some g) :
    m.functions.get? k = some g := by
  rw [h.functions, IdMap.get?_erase] at hg
  split at hg
  · cases hg
  · exact hg

theorem edited_of_appended {s : Storage} (h : Relation.ReflTransGen
    (fun g g' => ∃ name, Function.Appended s name g g') f g) : f.Edited g := by
  induction h with
  | refl => exact .refl
  | tail _ happended ih =>
    obtain ⟨name, happended⟩ := happended
    exact ih.tail (.append happended)

/-- What an operation can do to the functions: nothing, insert one (whose nodes have their names recorded,
if those of the functions before have), edit one, or erase one. -/
inductive FunctionStep (m : Module) (operation : Operation) (m' : Module) : Prop
  | same (h : m.SameFunctions m')
  | inserted {f : Function} (h : m.Inserted m' f)
      (hnamed : (∀ ⦃k : Nat⦄ ⦃g : Function⦄, m.functions.get? k = some g → g.Named) → f.Named)
  | edited {id : Nat} {f f' : Function} (h : m.Replaced m' id f')
      (hf : m.functions.get? id = some f) (hedit : f.Edit f')
      (hnodes : operation ≠ .eliminateDead id → f.nodes <+: f'.nodes)
  | erased {id : Nat} {f : Function} (h : m.Erased m' id f) (hf : m.functions.get? id = some f)

theorem Performed.functionStep (h : Performed m operation r m') : FunctionStep m operation m' := by
  have hchanges := h.functions
  cases operation with
  | createFunction name => exact .inserted hchanges fun _ => Function.named_nil name
  | cloneFunction id name =>
    obtain ⟨f, hf, h⟩ := hchanges
    exact .inserted h fun hm => (hm hf).rename name
  | differentiate id settings =>
    obtain ⟨f, derived, hf, happended, h⟩ := hchanges
    refine .inserted h fun hm => Function.Named.eliminateDead ?_
    exact ((hm hf).rename _).edited (edited_of_appended happended)
  | eraseFunction id =>
    obtain ⟨f, hf, h⟩ := hchanges
    exact .erased h hf
  | eliminateDead id =>
    obtain ⟨f, hf, h⟩ := hchanges
    exact .edited h hf .eliminateDead fun hne => absurd rfl hne
  | create id call =>
    obtain ⟨f, f', hf, happended, h⟩ := hchanges
    exact .edited h hf (.append happended) fun _ => happended.nodes
  | _ => exact .same hchanges

namespace FunctionStep

theorem next (h : FunctionStep m operation m') : m.nextFunction ≤ m'.nextFunction := by
  cases h with
  | same h => rw [h.next]
  | inserted h _ =>
    rw [h.next]
    omega
  | edited h _ _ _ => rw [h.next]
  | erased h _ => rw [h.next]

/-- What is under an issued number is what was there, edited at most once. -/
theorem kept (h : FunctionStep m operation m') (hk : k < m.nextFunction)
    (hg : m'.functions.get? k = some g) : ∃ f, m.functions.get? k = some f ∧ f.Edited g ∧
      (operation ≠ .eliminateDead k → f.nodes <+: g.nodes) := by
  have hold (hg : m.functions.get? k = some g) : ∃ f, m.functions.get? k = some f ∧ f.Edited g ∧
      (operation ≠ .eliminateDead k → f.nodes <+: g.nodes) :=
    ⟨g, hg, .refl, fun _ => List.prefix_refl _⟩
  cases h with
  | same h => exact hold (h.functions ▸ hg)
  | inserted h _ =>
    rcases h.cases hg with ⟨heq, -⟩ | hg
    · omega
    · exact hold hg
  | edited h hf hedit hnodes =>
    rcases h.cases hg with ⟨rfl, rfl⟩ | hg
    · exact ⟨_, hf, .single hedit, hnodes⟩
    · exact hold hg
  | erased h _ => exact hold (h.kept hg)

end FunctionStep

/-! ## The record of names -/

/-- In every group the names recorded as taken are the names in use, each of which is used once. -/
structure ExactNames (m : Module) : Prop where
  functions : m.Named
  vars : Names.Exact m.storage.varNames (m.storage.vars.map (·.name))
  placeholders : Names.Exact m.storage.placeholderNames (m.storage.placeholders.map (·.name))
  nodes : ∀ ⦃k : Nat⦄ ⦃f : Function⦄, m.functions.get? k = some f → f.Named

theorem exactNames_withSeed (seed : UInt64) : (withSeed seed).ExactNames :=
  ⟨named_withSeed seed, .nil, .nil, nofun⟩

/-- The rule gives an inserted function the name that `insertFunction` gives it. -/
theorem Inserted.named (h : m.Inserted m' f) (hm : m.Named) : m'.Named := by
  obtain ⟨name, hgiven, hfunctions, hnames⟩ := h.function
  obtain rfl := hgiven.unique (Names.fresh_given _ _)
  have hsame : (m.insertFunction f).2.Evolves m' := .of_same hfunctions hnames h.next
  exact hsame.named (hm.insertFunction f)

theorem Replaced.named (h : m.Replaced m' id g) (hf : m.functions.get? id = some f)
    (hname : g.name = f.name) (hm : m.Named) : m'.Named := by
  have hsame : (m.setFunction id g).Evolves m' := .of_same h.functions h.names h.next
  exact hsame.named (hm.setFunction (function_ok_iff.2 hf) hname)

theorem Erased.named (h : m.Erased m' id f) (hf : m.functions.get? id = some f) (hm : m.Named) :
    m'.Named := by
  have hnames : m'.functionNames = (m.withoutFunction id).functionNames := by
    rw [h.names, withoutFunction, hf]
    rfl
  have hsame : (m.withoutFunction id).Evolves m' := .of_same h.functions hnames h.next
  exact hsame.named (hm.erase id)

theorem FunctionStep.named (h : FunctionStep m operation m') (hm : m.Named) : m'.Named := by
  cases h with
  | same h => exact (Evolves.of_same h.functions h.names h.next).named hm
  | inserted h _ => exact h.named hm
  | edited h hf hedit _ => exact h.named hf (Function.Edited.same_name (.single hedit)) hm
  | erased h hf => exact h.named hf hm

/-- The nodes of every function keep their names recorded. -/
theorem FunctionStep.nodesNamed (h : FunctionStep m operation m')
    (hm : ∀ ⦃k : Nat⦄ ⦃f : Function⦄, m.functions.get? k = some f → f.Named) ⦃k : Nat⦄
    ⦃g : Function⦄ (hg : m'.functions.get? k = some g) : g.Named := by
  cases h with
  | same h => exact hm (h.functions ▸ hg)
  | inserted h hnamed =>
    rcases h.cases hg with ⟨-, name, rfl⟩ | hg
    · exact (hnamed hm).rename name
    · exact hm hg
  | edited h hf hedit _ =>
    rcases h.cases hg with ⟨-, rfl⟩ | hg
    · exact (hm hf).edit hedit
    · exact hm hg
  | erased h _ => exact hm (h.kept hg)

/-- One operation keeps the record exact. -/
theorem ExactNames.performed (h : m.ExactNames) (hperformed : Performed m operation r m') :
    m'.ExactNames := by
  obtain ⟨given, hgiven, hnames, hvars⟩ := hperformed.storage.vars
  obtain ⟨slots, hslots, hslotNames, hplaceholders⟩ := hperformed.storage.placeholders
  constructor
  · exact hperformed.functionStep.named h.functions
  · rw [hnames, hvars]
    exact h.vars.pushAll hgiven
  · rw [hslotNames, hplaceholders]
    exact h.placeholders.pushAll hslots
  · exact hperformed.functionStep.nodesNamed h.nodes

theorem ExactNames.perform (h : m.ExactNames) (operation : Operation) :
    (m.perform operation).2.ExactNames := by
  rcases m.perform_cases operation with ⟨e, hrefused⟩ | ⟨r, m', hdone, hperformed⟩
  · rwa [hrefused]
  · rw [hdone]
    exact h.performed hperformed

theorem ExactNames.performAll (h : m.ExactNames) (operations : List Operation) :
    (m.performAll operations).ExactNames := by
  induction operations generalizing m with
  | nil => exact h
  | cons operation operations ih => exact ih (h.perform operation)

/-! ## Look-ups -/

/-- The function that carries a name is found by it. -/
theorem Named.functionByName?_iff (h : m.Named) {name : String} :
    m.functionByName? name = some k ↔ (m.functions.get? k).map (·.name) = some name := by
  have hlookup : m.functionByName? name =
      (m.functions.entries.find? fun entry => entry.2.name = name).map (·.1) := rfl
  rw [hlookup, Option.map_eq_some_iff, Option.map_eq_some_iff]
  constructor
  · rintro ⟨⟨k', f⟩, hfind, rfl⟩
    have hmem := (IdMap.get?_eq_some_iff m.functions k' f).2 (List.mem_of_find?_eq_some hfind)
    exact ⟨f, hmem, by simpa using List.find?_some hfind⟩
  · rintro ⟨f, hf, hname⟩
    have hmem := (IdMap.get?_eq_some_iff m.functions k f).1 hf
    cases hfind : m.functions.entries.find? fun entry => entry.2.name = name with
    | none => exact absurd hname (by simpa using List.find?_eq_none.1 hfind _ hmem)
    | some entry =>
      have hget := (IdMap.get?_eq_some_iff m.functions entry.1 entry.2).2
        (List.mem_of_find?_eq_some hfind)
      have hentry : entry.2.name = name := by simpa using List.find?_some hfind
      exact ⟨entry, rfl, h.distinct hget hf (hentry.trans hname.symm)⟩

theorem Named.unambiguous (h : m.Named) : Names.Unambiguous m.functionNames
    (fun k => (m.functions.get? k).map (·.name)) m.functionByName? := by
  constructor
  · intro i j name hi hj
    obtain ⟨f, hf, hname⟩ := Option.map_eq_some_iff.1 hi
    obtain ⟨g, hg, hname'⟩ := Option.map_eq_some_iff.1 hj
    exact h.distinct hf hg (hname.trans hname'.symm)
  · intro name
    rw [h.taken]
    refine exists_congr fun k => ?_
    rw [Option.map_eq_some_iff]
  · intro name k
    exact h.functionByName?_iff

/-- In every group of objects names and numbers stand for each other: among functions, variables and
placeholders, and among the nodes of each function. -/
structure Unambiguous (m : Module) : Prop where
  functions : Names.Unambiguous m.functionNames (fun k => (m.functions.get? k).map (·.name))
    m.functionByName?
  vars : Names.Unambiguous m.storage.varNames (fun i => m.storage.name? (.var i))
    m.storage.variableByName?
  placeholders : Names.Unambiguous m.storage.placeholderNames
    (fun i => m.storage.name? (.placeholder i)) m.storage.placeholderByName?
  nodes : ∀ ⦃k : Nat⦄ ⦃f : Function⦄, m.functions.get? k = some f →
    Names.Unambiguous f.nodeNames (fun i => (f.node? i).map (·.name)) f.nodeByName?

theorem ExactNames.unambiguous (h : m.ExactNames) : m.Unambiguous where
  functions := h.functions.unambiguous
  vars := h.vars.unambiguous
  placeholders := h.placeholders.unambiguous
  nodes _ _ hf := (h.nodes hf).unambiguous

/-! ## Numbers -/

/-- The operations have led from `m` to `m'`: variables stand under their numbers with their names and
visibility, placeholders as they were. Under the number of a function is that function under its name, or
nothing, for good; its nodes keep their numbers unless its dead nodes are eliminated. -/
structure Keeps (m : Module) (operations : List Operation) (m' : Module) : Prop where
  vars : ∀ ⦃i : Nat⦄ ⦃v : Variable⦄, m.storage.vars[i]? = some v →
    ∃ v', m'.storage.vars[i]? = some v' ∧ v'.name = v.name ∧ v'.isPublic = v.isPublic
  placeholders : m.storage.placeholders <+: m'.storage.placeholders
  next : m.nextFunction ≤ m'.nextFunction
  functions : ∀ ⦃k : Nat⦄ ⦃g : Function⦄, k < m.nextFunction → m'.functions.get? k = some g →
    ∃ f, m.functions.get? k = some f ∧ g.name = f.name ∧ f.Edited g ∧
      (.eliminateDead k ∉ operations → f.nodes <+: g.nodes)

theorem Keeps.refl (m : Module) (operations : List Operation) : m.Keeps operations m where
  vars _ v hv := ⟨v, hv, rfl, rfl⟩
  placeholders := List.prefix_refl _
  next := le_rfl
  functions _ g _ hg := ⟨g, hg, rfl, .refl, fun _ => List.prefix_refl _⟩

theorem Keeps.trans {operations operations' : List Operation} (h : m.Keeps operations m')
    (h' : m'.Keeps operations' m'') : m.Keeps (operations ++ operations') m'' where
  vars i v hv := by
    obtain ⟨v', hv', hname', hvisible'⟩ := h.vars hv
    obtain ⟨v'', hv'', hname, hvisible⟩ := h'.vars hv'
    exact ⟨v'', hv'', hname.trans hname', hvisible.trans hvisible'⟩
  placeholders := h.placeholders.trans h'.placeholders
  next := h.next.trans h'.next
  functions k g hk hg := by
    obtain ⟨f', hf', hname', hedited', hnodes'⟩ := h'.functions (hk.trans_le h.next) hg
    obtain ⟨f, hf, hname, hedited, hnodes⟩ := h.functions hk hf'
    refine ⟨f, hf, hname'.trans hname, hedited.trans hedited', fun hkept => ?_⟩
    rw [List.mem_append, not_or] at hkept
    exact (hnodes hkept.1).trans (hnodes' hkept.2)

/-- A list that begins with another has its elements where it has them. -/
theorem getElem?_of_map_prefix {β γ : Type} {l l' : List β} {p : β → γ}
    (h : l.map p <+: l'.map p) {i : Nat} {b : β} (hb : l[i]? = some b) :
    ∃ b', l'[i]? = some b' ∧ p b' = p b := by
  obtain ⟨rest, hrest⟩ := h
  have hi : i < (l.map p).length := by
    rw [List.length_map]
    exact (List.getElem?_eq_some_iff.1 hb).1
  have hget : (l'.map p)[i]? = some (p b) := by
    rw [← hrest, List.getElem?_append_left hi, List.getElem?_map, hb]
    rfl
  rw [List.getElem?_map] at hget
  exact Option.map_eq_some_iff.1 hget

theorem Performed.keeps (h : Performed m operation r m') : m.Keeps [operation] m' where
  vars i v hv := by
    obtain ⟨given, -, -, hnames⟩ := h.storage.vars
    have hprefix : m.storage.vars.map (·.name) <+: m'.storage.vars.map (·.name) :=
      hnames ▸ List.prefix_append ..
    obtain ⟨v', hv', hname⟩ := getElem?_of_map_prefix hprefix hv
    obtain ⟨v'', hv'', hvisible⟩ := getElem?_of_map_prefix h.storage.visibility hv
    obtain rfl := Option.some.inj (hv'.symm.trans hv'')
    exact ⟨v', hv', hname, hvisible⟩
  placeholders := h.storage.kept
  next := h.functionStep.next
  functions k g hk hg := by
    obtain ⟨f, hf, hedited, hnodes⟩ := h.functionStep.kept hk hg
    refine ⟨f, hf, hedited.same_name, hedited, fun hkept => hnodes ?_⟩
    rintro rfl
    exact hkept List.mem_cons_self

theorem keeps_perform (m : Module) (operation : Operation) :
    m.Keeps [operation] (m.perform operation).2 := by
  rcases m.perform_cases operation with ⟨e, hrefused⟩ | ⟨r, m', hdone, hperformed⟩
  · rw [hrefused]
    exact .refl m _
  · rw [hdone]
    exact hperformed.keeps

theorem keeps_performAll (m : Module) (operations : List Operation) :
    m.Keeps operations (m.performAll operations) := by
  induction operations generalizing m with
  | nil => exact .refl m []
  | cons operation operations ih => exact (m.keeps_perform operation).trans (ih _)

/-- In a module that any sequence of operations has made, names and numbers stand for each other, and the
names recorded as taken are those in use. Another operation is refused without a change, or performed: new
objects have the names that they ask for, or the first numbered forms of them that are free, and are
found under the number that is returned. However the operations go on, no number that has been issued
comes to stand for another object. -/
theorem names_stay_unambiguous (seed : UInt64) (before : List Operation) :
    let m := (withSeed seed).performAll before
    m.Unambiguous ∧
      (∀ operation, (∃ e, m.perform operation = (.error e, m)) ∨
        ∃ r m', m.perform operation = (.ok r, m') ∧ Performed m operation r m') ∧
      ∀ after, m.Keeps after (m.performAll after) := by
  intro m
  have hexact : m.ExactNames := (exactNames_withSeed seed).performAll before
  exact ⟨hexact.unambiguous, m.perform_cases, m.keeps_performAll⟩

end Module

namespace Sample

/-- Objects that ask for a name that is taken, for a numbered one and for none, and a function that is
erased before its name is asked for again. -/
def homonyms : List Module.Operation := [
  .createVariable "w" (.zeros (.float [1])) false true,
  .createVariable "w__1" (.zeros (.float [1])) true false,
  .createVariable "w" (.zeros (.float [1])) false true,
  .createVariable "" (.zeros (.float [1])) false false,
  .createPlaceholder "w" (.float [1]) false,
  .createFunction "f",
  .create 0 (.node "x" (.unary .relu) [.storage (.var 0)]),
  .create 0 (.node "x" (.unary .relu) [.node 0 0]),
  .cloneFunction 0 "f",
  .eraseFunction 0,
  .createFunction "f"]

/-- The third variable gets the second number, since the first is taken; it is found under its name. The
erased function is not there again under its number, whatever is done. -/
theorem names_stay_unambiguous_homonyms :
    let m := (Module.withSeed 0).performAll homonyms
    m.storage.varNames = ["w", "w__1", "w__2", "anon"] ∧
      m.storage.variableByName? "w__2" = some 2 ∧ m.functionByName? "f" = some 2 ∧
      m.functionByName? "f__2" = none ∧
      ∀ after, (m.performAll after).functions.get? 0 = none := by
  intro m
  obtain ⟨hunambiguous, -, hkeeps⟩ := Module.names_stay_unambiguous 0 homonyms
  refine ⟨rfl, ?_, ?_, ?_, fun after => ?_⟩
  · exact (hunambiguous.vars.find?_iff _ _).2 rfl
  · exact (hunambiguous.functions.find?_iff _ _).2 rfl
  · refine Option.eq_none_iff_forall_ne_some.2 fun k hk => ?_
    have hname := (hunambiguous.functions.find?_iff _ _).1 hk
    have htaken := (hunambiguous.functions.taken_iff "f__2").2 ⟨k, hname⟩
    exact absurd htaken (by decide)
  · refine Option.eq_none_iff_forall_ne_some.2 fun g hg => ?_
    obtain ⟨f, hf, -⟩ := (hkeeps after).functions (by decide) hg
    cases hf

end Sample

end TensorCompiler
