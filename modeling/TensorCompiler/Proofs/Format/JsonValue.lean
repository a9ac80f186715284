import TensorCompiler.Proofs.Format.JsonNumber
import TensorCompiler.Proofs.Lists

/-!
Decoders on what the encoders produce: records, constructors, strings, numbers and lists are read
back as they were. A list is read back if each of its items is (`list?_guard`).
-/

namespace TensorCompiler

namespace Json

variable {β : Type}

/-! ## Records and constructors -/

theorem field?_of_nodup {fields : List (String × Json)} (h : (fields.map (·.1)).Nodup)
    {f : String × Json} (hf : f ∈ fields) :
    field? (fields.map fun f => (f.1.toList, f.2)) f.1 = some (some f.2) := by
  have hfilter : (fields.map fun g => (g.1.toList, g.2)).filter (fun g => g.1 = f.1.toList) =
      [(f.1.toList, f.2)] := by
    rw [List.filter_map, ← List.map_singleton (f := fun g : String × Json => (g.1.toList, g.2)),
      ← filter_eq_singleton h hf]
    simp [Function.comp_def, String.toList_inj]
  rw [field?, hfilter]

/-- The fields of a record, by their names. -/
@[simp] theorem record?_record {fields : List (String × Json)} {names : List String}
    (hnames : fields.map (·.1) = names) (hnodup : names.Nodup) :
    record? names (record fields) = some (fields.map (·.2)) := by
  subst hnames
  have hunescape : (fields.map fun f => (escape f.1.toList, f.2)).mapM
      (fun f => (unescape f.1).bind fun k => some (k, f.2)) =
      some (fields.map fun f => (f.1.toList, f.2)) := by
    rw [List.mapM_map]
    exact mapM_eq_some_map fun f _ => by simp [unescape_escape]
  have hfields : (fields.map (·.1)).mapM (field? (fields.map fun f => (f.1.toList, f.2))) =
      some (fields.map fun f => some f.2) := by
    rw [List.mapM_map]
    exact mapM_eq_some_map fun f hf => field?_of_nodup hnodup hf
  have hvalues : (fields.map fun f => some f.2).mapM id = some (fields.map (·.2)) := by
    rw [List.mapM_map]
    exact mapM_eq_some_map fun _ _ => rfl
  simp only [record?, record, partial?, Option.bind_eq_bind, Option.pure_def]
  rw [hunescape, Option.bind_some, hfields, Option.bind_some, hvalues]

@[simp] theorem string?_ofString (s : String) : (ofString s).string? = some s := by
  simp [ofString, string?, unescape_escape]

@[simp] theorem variant?_ofString (s : String) : variant? (ofString s) = some (s, none) := by
  simp [ofString, variant?, unescape_escape]

@[simp] theorem variant?_variant (name : String) (value : Json) :
    variant? (variant name value) = some (name, some value) := by
  simp [variant, record, variant?, unescape_escape]

/-! ## Numbers -/

theorem id?_ofNat {n : Nat} (h : n < UInt32.size) : id? (ofNat n) = some n :=
  nat?_ofNat h (by decide)

theorem size?_ofNat {n : Nat} (h : n < UInt64.size) : size? (ofNat n) = some n :=
  nat?_ofNat h (Nat.le_refl _)

end Json

/-- The text of a finite number is read as that number. -/
def Single.ReadsBack (x : Single) : Prop :=
  x.isFinite = true → Json.single? (Json.ofSingle x) = some x

instance : DecidablePred Single.ReadsBack := fun x =>
  inferInstanceAs (Decidable (x.isFinite = true → Json.single? (Json.ofSingle x) = some x))

namespace Json

variable {β : Type}

theorem single?_ofSingle {x : Single} (h : x.ReadsBack) :
    single? (ofSingle x) = Option.guard Single.isFinite x := by
  cases hx : x.isFinite with
  | true => simp [h hx, Option.guard, hx]
  | false => simp [ofSingle, hx, single?, Option.guard]

theorem ite_bind {γ : Type} {c : Prop} [Decidable c] (b : β) (f : β → Option γ) :
    (if c then some b else none).bind f = if c then f b else none := by
  split <;> rfl

/-! ## Lists -/

theorem list?_guard {item : β → Json} {item? : Json → Option β} {p : β → Bool} {l : List β}
    (h : ∀ b ∈ l, item? (item b) = Option.guard p b) :
    (array (l.map item)).list? item? = Option.guard (List.all · p) l := by
  rw [list?]
  induction l with
  | nil => rfl
  | cons b l ih =>
    rw [List.map_cons, List.mapM_cons, h b List.mem_cons_self,
      ih fun c hc => h c (List.mem_cons_of_mem _ hc)]
    simp [Option.guard, ite_bind, ite_and]

theorem list?_some {item : β → Json} {item? : Json → Option β} {l : List β}
    (h : ∀ b ∈ l, item? (item b) = some b) : (array (l.map item)).list? item? = some l := by
  rw [list?_guard (p := fun _ => true) h]
  simp [Option.guard]

/-! ## What is written -/

@[simp] theorem written_record {fields : List (String × Json)} :
    Written (record fields) ↔ ∀ f ∈ fields, Written f.2 := by
  constructor
  · intro h
    cases h with
    | object _ hvalues =>
      exact fun f hf => hvalues _ (List.mem_map_of_mem hf)
  · intro h
    refine .object ?_ ?_
    · intro f hf
      obtain ⟨g, -, rfl⟩ := List.mem_map.1 hf
      exact ⟨_, rfl⟩
    · intro f hf
      obtain ⟨g, hg, rfl⟩ := List.mem_map.1 hf
      exact h g hg

@[simp] theorem written_variant {name : String} {value : Json} :
    Written (variant name value) ↔ Written value := by
  simp [variant]

@[simp] theorem written_array {item : β → Json} {l : List β} :
    Written (array (l.map item)) ↔ ∀ b ∈ l, Written (item b) := by
  constructor
  · intro h
    cases h with
    | array hitems => simpa using hitems
  · intro h
    exact .array (by simpa using h)

@[simp] theorem written_ofString (s : String) : Written (ofString s) := .string _

end Json

end TensorCompiler
