import TensorCompiler.Proofs.Graph.Factories
import TensorCompiler.Proofs.Graph.NodeNames

/-!
The operations on a module as data, and what each of them does (`Module.Performed`): the names that it
gives to the storage that it declares, the function that it adds, edits or erases, and the number that it
returns. An operation that fails leaves the module as it was (`Module.perform_cases`).
-/

namespace TensorCompiler

/-! ## Declarations of storage -/

/-- Storage `s` has got variables and placeholders with the names given to those that ask for `vars`
and `placeholders`. What was declared before stands under its number; tensors may have been replaced. -/
structure Storage.Declared (s s' : Storage) (vars placeholders : List String) : Prop where
  vars : ∃ given, Names.GivenAll s.varNames vars given ∧
    s'.varNames = s.varNames ++ given ∧ s'.vars.map (·.name) = s.vars.map (·.name) ++ given
  visibility : s.vars.map (·.isPublic) <+: s'.vars.map (·.isPublic)
  placeholders : ∃ given, Names.GivenAll s.placeholderNames placeholders given ∧
    s'.placeholderNames = s.placeholderNames ++ given ∧
    s'.placeholders.map (·.name) = s.placeholders.map (·.name) ++ given
  kept : s.placeholders <+: s'.placeholders

namespace Storage

variable {s s' s'' : Storage} {vars vars' placeholders placeholders' : List String}

theorem declared_of_same (hvars : s'.vars.map (fun v => (v.name, v.isPublic)) =
      s.vars.map (fun v => (v.name, v.isPublic))) (hvarNames : s'.varNames = s.varNames)
    (hplaceholders : s'.placeholders = s.placeholders)
    (hplaceholderNames : s'.placeholderNames = s.placeholderNames) : s.Declared s' [] [] := by
  have hnames := congrArg (List.map Prod.fst) hvars
  have hvisibility := congrArg (List.map Prod.snd) hvars
  simp only [List.map_map] at hnames hvisibility
  refine ⟨⟨[], .nil _, ?_, ?_⟩, ?_, ⟨[], .nil _, ?_, ?_⟩, ?_⟩
  · rw [hvarNames, List.append_nil]
  · rw [List.append_nil]
    exact hnames
  · exact hvisibility ▸ List.prefix_refl _
  · rw [hplaceholderNames, List.append_nil]
  · rw [hplaceholders, List.append_nil]
  · rw [hplaceholders]

theorem Declared.refl (s : Storage) : s.Declared s [] [] := declared_of_same rfl rfl rfl rfl

theorem Declared.trans (h : s.Declared s' vars placeholders)
    (h' : s'.Declared s'' vars' placeholders') :
    s.Declared s'' (vars ++ vars') (placeholders ++ placeholders') := by
  obtain ⟨given, hgiven, hnames, hvars⟩ := h.vars
  obtain ⟨given', hgiven', hnames', hvars'⟩ := h'.vars
  obtain ⟨slots, hslots, hslotNames, hplaceholders⟩ := h.placeholders
  obtain ⟨slots', hslots', hslotNames', hplaceholders'⟩ := h'.placeholders
  rw [hnames] at hgiven'
  rw [hslotNames] at hslots'
  constructor
  · refine ⟨given ++ given', hgiven.append hgiven', ?_, ?_⟩
    · rw [hnames', hnames, List.append_assoc]
    · rw [hvars', hvars, List.append_assoc]
  · exact h.visibility.trans h'.visibility
  · refine ⟨slots ++ slots', hslots.append hslots', ?_, ?_⟩
    · rw [hslotNames', hslotNames, List.append_assoc]
    · rw [hplaceholders', hplaceholders, List.append_assoc]
  · exact h.kept.trans h'.kept

theorem declared_addVariable (s : Storage) (name : String) (payload : Tensor Single)
    (isPublic trainable : Bool) :
    s.Declared (s.addVariable name payload isPublic trainable) [name] [] := by
  refine ⟨⟨_, .cons (Names.fresh_given s.varNames name) (.nil _), rfl, ?_⟩, ?_,
    ⟨[], .nil _, ?_, ?_⟩, List.prefix_refl _⟩
  · simp [addVariable]
  · simp [addVariable]
  · rw [List.append_nil]
    rfl
  · rw [List.append_nil]
    rfl

theorem declared_addPlaceholder (s : Storage) (name : String) (type : TensorType)
    (trainable : Bool) : s.Declared (s.addPlaceholder name type trainable) [] [name] := by
  refine ⟨⟨[], .nil _, ?_, ?_⟩, List.prefix_refl _,
    ⟨_, .cons (Names.fresh_given s.placeholderNames name) (.nil _), rfl, ?_⟩, List.prefix_append ..⟩
  · rw [List.append_nil]
    rfl
  · rw [List.append_nil]
    rfl
  · simp [addPlaceholder]

/-- A variable that is changed keeps its name and visibility. -/
theorem declared_modify (s : Storage) (id : Nat) {change : Variable → Variable}
    (hname : ∀ v, (change v).name = v.name) (hvisible : ∀ v, (change v).isPublic = v.isPublic) :
    s.Declared { s with vars := s.vars.modify id change } [] [] := by
  refine declared_of_same (List.ext_getElem? fun i => ?_) rfl rfl rfl
  rw [List.getElem?_map, List.getElem?_map, List.getElem?_modify]
  cases s.vars[i]? with
  | none => rfl
  | some v =>
    by_cases hi : id = i
    · simp [hi, hname, hvisible]
    · simp [hi]

end Storage

namespace Module

variable {m m' : Module} {id k : Nat} {f : Function}

/-! ## Functions -/

/-- A function has been added under the next number and the name given to one that asks for `f.name`. -/
structure Inserted (m m' : Module) (f : Function) : Prop where
  function : ∃ name, Names.Given m.functionNames f.name name ∧
    m'.functions = m.functions.insert m.nextFunction { f with name } ∧
    m'.functionNames = m.functionNames ++ [name]
  next : m'.nextFunction = m.nextFunction + 1

/-- The functions are those of `m`, except that `f` is in the place of the one with the number `id`. -/
structure Replaced (m m' : Module) (id : Nat) (f : Function) : Prop where
  functions : m'.functions = m.functions.insert id f
  names : m'.functionNames = m.functionNames
  next : m'.nextFunction = m.nextFunction

/-- A function has been erased, and its name given back. -/
structure Erased (m m' : Module) (id : Nat) (f : Function) : Prop where
  functions : m'.functions = m.functions.erase id
  names : m'.functionNames = Names.release m.functionNames [f.name]
  next : m'.nextFunction = m.nextFunction

/-- The functions are those of `m`. -/
structure SameFunctions (m m' : Module) : Prop where
  functions : m'.functions = m.functions
  names : m'.functionNames = m.functionNames
  next : m'.nextFunction = m.nextFunction

theorem inserted_insertFunction (m : Module) (f : Function) :
    m.Inserted (m.insertFunction f).2 f :=
  ⟨⟨_, Names.fresh_given m.functionNames f.name, rfl, rfl⟩, rfl⟩

/-! ## Operations -/

/-- An operation on a module; `create` calls a factory of the function with the number `id`. -/
inductive Operation where
  | createVariable (name : String) (payload : Tensor Single) (isPublic trainable : Bool)
  | createPlaceholder (name : String) (type : TensorType) (trainable : Bool)
  | setPayload (id : Nat) (t : Tensor Single)
  | setElements (id : Nat) (elements : Payload Single)
  | setTrainable (id : Nat) (trainable : Bool)
  | createFunction (name : String)
  | cloneFunction (id : Nat) (name : String)
  | differentiate (id : Nat) (settings : Descent)
  | eraseFunction (id : Nat)
  | eliminateDead (id : Nat)
  | create (id : Nat) (call : Factory)

/-- The number that an operation returns, if any, and the module that it leaves; one that fails leaves
the module as it was. -/
def settle (m : Module) : Except Error (Option Nat × Module) → Except Error (Option Nat) × Module
  | .ok (k, m') => (.ok k, m')
  | .error e => (.error e, m)

/-- Performs an operation. -/
def perform (m : Module) : Operation → Except Error (Option Nat) × Module
  | .createVariable name payload isPublic trainable =>
    let (id, m') := m.createVariable name payload isPublic trainable
    (.ok (some id), m')
  | .createPlaceholder name type trainable =>
    let (id, m') := m.createPlaceholder name type trainable
    (.ok (some id), m')
  | .setPayload id t => m.settle ((m.setPayload id t).map fun m' => (none, m'))
  | .setElements id elements => m.settle ((m.setElements id elements).map fun m' => (none, m'))
  | .setTrainable id trainable => m.settle ((m.setTrainable id trainable).map fun m' => (none, m'))
  | .createFunction name =>
    let (id, m') := m.createFunction name
    (.ok (some id), m')
  | .cloneFunction id name =>
    m.settle ((m.cloneFunction id name).map fun (k, m') => (some k, m'))
  | .differentiate id settings =>
    m.settle ((m.differentiate id settings).map fun (k, m') => (some k, m'))
  | .eraseFunction id => m.settle ((m.eraseFunction id).map fun (_, m') => (none, m'))
  | .eliminateDead id => m.settle ((m.eliminateDead id).map fun (_, m') => (none, m'))
  | .create id call =>
    let (result, m') := m.create id call
    (result.map some, m')

/-- Performs operations one after the other. -/
def performAll (m : Module) (operations : List Operation) : Module :=
  operations.foldl (fun m operation => (m.perform operation).2) m

namespace Factory

/-- The names that a call asks for: those of its weights, of its placeholder, and of its node. -/
def varNames : Factory → List String
  | .convolution name .. => [name ++ ".filter", name ++ ".bias"]
  | .dense name .. => [name ++ ".weights", name ++ ".bias"]
  | _ => []

def placeholderNames : Factory → List String
  | .output name _ => [name]
  | _ => []

def nodeName : Factory → String
  | .node name .. | .convolution name .. | .dense name .. => name
  | .output name _ => "save_" ++ name

end Factory

namespace Operation

/-- The names of variables that an operation asks for. -/
def varNames : Operation → List String
  | .createVariable name .. => [name]
  | .create _ call => call.varNames
  | _ => []

/-- The names of placeholders that an operation asks for. -/
def placeholderNames : Operation → List String
  | .createPlaceholder name .. => [name]
  | .create _ call => call.placeholderNames
  | _ => []

/-- The number that an operation returns: that of the object that it makes. -/
def number (m : Module) : Operation → Option Nat
  | .createVariable .. => some m.storage.vars.length
  | .createPlaceholder .. => some m.storage.placeholders.length
  | .createFunction _ | .cloneFunction .. | .differentiate .. => some m.nextFunction
  | .create id call => (m.functions.get? id).map (call.number m)
  | _ => none

/-- What an operation does to the functions. The training function is the source under another name, after
nodes have been appended and the dead ones eliminated. -/
def Changes (m m' : Module) : Operation → Prop
  | .createFunction name => m.Inserted m' { name, nodes := [] }
  | .cloneFunction id name => ∃ f, m.functions.get? id = some f ∧ m.Inserted m' { f with name }
  | .differentiate id _ => ∃ f derived, m.functions.get? id = some f ∧
      Relation.ReflTransGen (fun g g' => ∃ name, Function.Appended m.storage name g g')
        { f with name := f.name ++ "_grad" } derived ∧ m.Inserted m' derived.eliminateDead
  | .eraseFunction id => ∃ f, m.functions.get? id = some f ∧ m.Erased m' id f
  | .eliminateDead id => ∃ f, m.functions.get? id = some f ∧ m.Replaced m' id f.eliminateDead
  | .create id call => ∃ f f', m.functions.get? id = some f ∧
      Function.Appended m'.storage call.nodeName f f' ∧ m.Replaced m' id f'
  | _ => m.SameFunctions m'

end Operation

/-- The operation has been performed on `m` and has left `m'`. -/
structure Performed (m : Module) (operation : Operation) (number : Option Nat) (m' : Module) :
    Prop where
  number : number = operation.number m
  storage : m.storage.Declared m'.storage operation.varNames operation.placeholderNames
  functions : operation.Changes m m'

/-! ## Calls of factories -/

theorem performed_createNode {name : String} {op : Operator} {inputs : List Value} {r : Nat}
    (h : m.createNode k name op inputs = (.ok r, m')) : ∃ f f', m.functions.get? k = some f ∧
      r = f.size ∧ f.Appended m.storage name f' ∧ m.Replaced m' k f' ∧ m'.storage = m.storage := by
  rcases m.createNode_cases k name op inputs with ⟨e, hnode⟩ | ⟨f, f', hf, happend, hnode⟩
  · cases hnode.symm.trans h
  · obtain ⟨hr, rfl⟩ := Prod.mk.inj (h.symm.trans hnode)
    exact ⟨f, f', function_ok_iff.1 hf, Except.ok.inj hr, Function.appended_of_append happend,
      ⟨rfl, rfl, rfl⟩, rfl⟩

/-- A node over storage that the same call has declared. -/
theorem performed_create {call : Factory} {declared : Module} {op : Operator} {inputs : List Value}
    {r n : Nat} (hsame : m.SameFunctions declared)
    (hstorage : m.storage.Declared declared.storage call.varNames call.placeholderNames)
    (hnumber : ∀ f, r = f.size → n = call.number m f)
    (h : declared.createNode k call.nodeName op inputs = (.ok r, m')) :
    Performed m (.create k call) (some n) m' := by
  obtain ⟨f, f', hf, hr, happended, hreplaced, hunchanged⟩ := performed_createNode h
  rw [hsame.functions] at hf
  rw [← hunchanged] at happended hstorage
  refine ⟨?_, hstorage, f, f', hf, happended, ?_, ?_, ?_⟩
  · rw [hnumber f hr]
    simp [Operation.number, hf]
  · rw [hreplaced.functions, hsame.functions]
  · rw [hreplaced.names, hsame.names]
  · rw [hreplaced.next, hsame.next]

/-- A node over weights that the same call has declared. -/
theorem performed_layer {call : Factory} {weights bias : String} {shape : Shape}
    {fanIn depth r : Nat} {op : Operator} {inputs : List Value}
    (hvars : call.varNames = [weights, bias]) (hslots : call.placeholderNames = [])
    (hnumber : ∀ f, call.number m f = f.size)
    (h : (m.createWeights weights bias shape fanIn depth).2.createNode k call.nodeName op inputs =
      (.ok r, m')) : Performed m (.create k call) (some r) m' := by
  have hstorage : m.storage.Declared (m.createWeights weights bias shape fanIn depth).2.storage
      [weights, bias] [] :=
    (Storage.declared_addVariable m.storage weights _ false true).trans
      (Storage.declared_addVariable _ bias _ false true)
  have hsame : m.SameFunctions (m.createWeights weights bias shape fanIn depth).2 :=
    ⟨rfl, rfl, rfl⟩
  rw [← hvars, ← hslots] at hstorage
  exact performed_create hsame hstorage (fun f hr => hr.trans (hnumber f).symm) h

theorem performed_convolution {name : String} {input : Value} {p : Convolution} {r : Nat}
    (h : m.createConvolution k name input p = (.ok r, m')) :
    Performed m (.create k (.convolution name input p)) (some r) m' := by
  unfold createConvolution at h
  split at h
  · cases h
  · simp only [createWeights_numbers] at h
    exact performed_layer rfl rfl (fun _ => rfl) h

theorem performed_dense {name : String} {input : Value} {depth r : Nat}
    (h : m.createDense k name input depth = (.ok r, m')) :
    Performed m (.create k (.dense name input depth)) (some r) m' := by
  unfold createDense at h
  split at h
  · cases h
  · simp only [createWeights_numbers] at h
    exact performed_layer rfl rfl (fun _ => rfl) h

theorem performed_output {name : String} {value : Value} {r : Nat}
    (h : m.createOutput k name value = (.ok r, m')) :
    Performed m (.create k (.output name value)) (some r) m' := by
  unfold createOutput at h
  split at h
  · cases h
  · next type _ =>
    let declared := (m.createPlaceholder name type false).2
    let saved := declared.createNode k ("save_" ++ name)
      (.save (.placeholder m.storage.placeholders.length)) [value]
    have hsaved : (saved.1.map fun _ => m.storage.placeholders.length, saved.2) = (.ok r, m') := h
    obtain ⟨hresult, hm'⟩ := Prod.mk.inj hsaved
    cases hnode : saved.1 with
    | error e =>
      rw [hnode] at hresult
      cases hresult
    | ok node =>
      rw [hnode] at hresult
      obtain rfl := Except.ok.inj hresult
      have hsame : m.SameFunctions declared := ⟨rfl, rfl, rfl⟩
      exact performed_create hsame (m.storage.declared_addPlaceholder name type false)
        (fun _ _ => rfl) (Prod.ext hnode hm')

/-! ## All operations -/

/-- An operation that may fail. -/
theorem settle_cases (m : Module) {operation : Operation} {β : Type} {x : Except Error β}
    {g : β → Option Nat × Module}
    (h : ∀ b, x = .ok b → Performed m operation (g b).1 (g b).2) :
    (∃ e, m.settle (x.map g) = (.error e, m)) ∨
      ∃ r m', m.settle (x.map g) = (.ok r, m') ∧ Performed m operation r m' := by
  cases x with
  | error e => exact .inl ⟨e, rfl⟩
  | ok b => exact .inr ⟨_, _, rfl, h b rfl⟩

theorem declared_setPayload {t : Tensor Single} (h : m.setPayload id t = .ok m') :
    m.storage.Declared m'.storage [] [] ∧ m.SameFunctions m' := by
  simp only [setPayload, bind_ok_iff, pure_ok_iff] at h
  obtain ⟨v, -, rfl⟩ := h
  exact ⟨m.storage.declared_modify id (fun _ => rfl) fun _ => rfl, rfl, rfl, rfl⟩

theorem declared_setTrainable {trainable : Bool} (h : m.setTrainable id trainable = .ok m') :
    m.storage.Declared m'.storage [] [] ∧ m.SameFunctions m' := by
  simp only [setTrainable, bind_ok_iff, pure_ok_iff] at h
  obtain ⟨v, -, rfl⟩ := h
  exact ⟨m.storage.declared_modify id (fun _ => rfl) fun _ => rfl, rfl, rfl, rfl⟩

/-- A differentiation appends its nodes one after the other to the source. -/
theorem performed_differentiate {settings : Descent} (h : m.differentiate id settings = .ok (k, m')) :
    Performed m (.differentiate id settings) (some k) m' := by
  obtain ⟨f, derived, hf, hverify, -, hderived, -, hinsert⟩ := differentiate_ok_iff.1 h
  obtain ⟨derived', hderived', hd, -⟩ :=
    exists_derived hverify (Training.hasRule_of_derivative hderived) settings
  obtain rfl := Except.ok.inj (hderived.symm.trans hderived')
  obtain ⟨rfl, rfl⟩ := Prod.mk.inj hinsert
  exact ⟨rfl, .refl _, f, derived, function_ok_iff.1 hf, hd.draft.appended,
    m.inserted_insertFunction _⟩

theorem performed_create_ok {call : Factory} {r : Nat} (h : m.create id call = (.ok r, m')) :
    Performed m (.create id call) (some r) m' := by
  cases call with
  | node name op inputs =>
    exact performed_create ⟨rfl, rfl, rfl⟩ (.refl _) (fun _ hr => hr) h
  | convolution name input p => exact performed_convolution h
  | dense name input depth => exact performed_dense h
  | output name value => exact performed_output h

/-- An operation fails and leaves the module as it was, or is performed. -/
theorem perform_cases (m : Module) (operation : Operation) :
    (∃ e, m.perform operation = (.error e, m)) ∨
      ∃ r m', m.perform operation = (.ok r, m') ∧ Performed m operation r m' := by
  cases operation with
  | createVariable name payload isPublic trainable =>
    exact .inr ⟨_, _, rfl, rfl, m.storage.declared_addVariable .., rfl, rfl, rfl⟩
  | createPlaceholder name type trainable =>
    exact .inr ⟨_, _, rfl, rfl, m.storage.declared_addPlaceholder .., rfl, rfl, rfl⟩
  | setPayload id t =>
    apply m.settle_cases
    intro m' hset
    obtain ⟨hstorage, hsame⟩ := declared_setPayload hset
    exact ⟨rfl, hstorage, hsame⟩
  | setElements id elements =>
    apply m.settle_cases
    intro m' hset
    obtain ⟨v, -, hset⟩ := bind_ok_iff.1 hset
    obtain ⟨t, -, hset⟩ := bind_ok_iff.1 hset
    obtain ⟨hstorage, hsame⟩ := declared_setPayload hset
    exact ⟨rfl, hstorage, hsame⟩
  | setTrainable id trainable =>
    apply m.settle_cases
    intro m' hset
    obtain ⟨hstorage, hsame⟩ := declared_setTrainable hset
    exact ⟨rfl, hstorage, hsame⟩
  | createFunction name =>
    exact .inr ⟨_, _, rfl, rfl, .refl _, m.inserted_insertFunction _⟩
  | cloneFunction id name =>
    apply m.settle_cases
    rintro ⟨k, m'⟩ hclone
    simp only [cloneFunction, bind_ok_iff, pure_ok_iff] at hclone
    obtain ⟨f, hf, hinsert⟩ := hclone
    obtain ⟨rfl, rfl⟩ := Prod.mk.inj hinsert
    exact ⟨rfl, .refl _, f, function_ok_iff.1 hf, m.inserted_insertFunction _⟩
  | differentiate id settings =>
    apply m.settle_cases
    rintro ⟨k, m'⟩ hdifferentiate
    exact performed_differentiate hdifferentiate
  | eraseFunction id =>
    apply m.settle_cases
    rintro ⟨f, m'⟩ herase
    simp only [eraseFunction, bind_ok_iff, pure_ok_iff, Prod.mk.injEq] at herase
    obtain ⟨f', hf, rfl, rfl⟩ := herase
    have hf := function_ok_iff.1 hf
    refine ⟨rfl, .refl _, f', hf, rfl, ?_, rfl⟩
    simp [withoutFunction, hf]
  | eliminateDead id =>
    apply m.settle_cases
    rintro ⟨count, m'⟩ heliminate
    simp only [Module.eliminateDead, bind_ok_iff, pure_ok_iff, Prod.mk.injEq] at heliminate
    obtain ⟨f, hf, -, rfl⟩ := heliminate
    exact ⟨rfl, .refl _, f, function_ok_iff.1 hf, rfl, rfl, rfl⟩
  | create id call =>
    cases hcall : m.create id call with
    | mk result m' =>
      cases result with
      | error e =>
        rcases Factory.atomic m id call with ⟨e', hrefused⟩ | ⟨r, m₁, hdone, -⟩
        · exact .inl ⟨e', by simp only [perform, hrefused]; rfl⟩
        · cases hcall.symm.trans hdone
      | ok r => exact .inr ⟨_, _, by simp only [perform, hcall]; rfl, performed_create_ok hcall⟩

end Module

end TensorCompiler
