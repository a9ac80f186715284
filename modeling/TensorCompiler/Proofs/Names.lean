import TensorCompiler.Names
import Mathlib.Data.List.Nodup
import Mathlib.Data.List.Perm.Subperm

/-!
How names are given, and what the record of the names taken is worth. A new object gets the name that it
asks for or the first numbered form of it that is free (`Names.fresh_given`): the numbered forms of a
name are distinct, so fewer of them than there are names are tried. A record that holds the names in use,
each of them used once (`Names.Exact`), stays so when an object is added and when objects go.
-/

namespace TensorCompiler.Names

variable {taken used : List String} {name : String}

/-! ## The name of a new object -/

/-- The name that an object gets that asks for `name` when the names `taken` are taken: what it asks for,
or that with the smallest number, from one on, that makes it free. -/
inductive Given (taken : List String) (name : String) : String → Prop
  | free : base name ∉ taken → Given taken name (base name)
  | first (n : Nat) : base name ∈ taken → 0 < n → n ≤ taken.length →
      numbered (base name) n ∉ taken → (∀ k, 0 < k → k < n → numbered (base name) k ∈ taken) →
      Given taken name (numbered (base name) n)

theorem numbered_injective (base : String) : Function.Injective (numbered base) := by
  intro i j h
  have hlists := congrArg String.toList h
  simp only [numbered, String.toList_append, Nat.toList_repr] at hlists
  have hdigits : Nat.toDigits 10 i = Nat.toDigits 10 j := List.append_cancel_left hlists
  simpa using congrArg (Nat.ofDigitChars 10 · 0) hdigits

theorem numbered_ne (base : String) (n : Nat) : base ≠ numbered base n := by
  intro h
  have hlengths := congrArg String.length h
  simp only [numbered, String.length_append] at hlengths
  have hdashes : "__".length = 2 := rfl
  omega

/-- Where a name and its first `n` numbered forms are taken, more than `n` names are. -/
theorem lt_length_of_taken {base : String} {n : Nat} (hbase : base ∈ taken)
    (h : ∀ k < n, numbered base (k + 1) ∈ taken) : n < taken.length := by
  have hdistinct : (base :: (List.range n).map fun k => numbered base (k + 1)).Nodup := by
    refine List.nodup_cons.2 ⟨fun hmem => ?_, ?_⟩
    · obtain ⟨k, -, heq⟩ := List.mem_map.1 hmem
      exact numbered_ne base (k + 1) heq.symm
    · exact List.Nodup.map (fun i j hij => Nat.succ.inj (numbered_injective base hij))
        List.nodup_range
  have htaken : (base :: (List.range n).map fun k => numbered base (k + 1)) ⊆ taken := by
    intro candidate hmem
    rcases List.mem_cons.1 hmem with rfl | hmem
    · exact hbase
    · obtain ⟨k, hk, rfl⟩ := List.mem_map.1 hmem
      exact h k (List.mem_range.1 hk)
  have hlength := (hdistinct.subperm htaken).length_le
  rw [List.length_cons, List.length_map, List.length_range] at hlength
  omega

/-- The search for a number ends, and before there are more tries than names. -/
theorem fresh_given (taken : List String) (name : String) : Given taken name (fresh taken name) := by
  unfold fresh
  split
  · next hfree => exact .free hfree
  · next htaken =>
    have hbase : base name ∈ taken := Decidable.of_not_not htaken
    split
    · next n hfound =>
      obtain ⟨hfree, -, hbefore⟩ := List.find?_range_eq_some.1 hfound
      have hbefore : ∀ k < n, numbered (base name) (k + 1) ∈ taken := by simpa using hbefore
      refine .first (n + 1) hbase n.succ_pos (lt_length_of_taken hbase hbefore)
        (by simpa using hfree) fun k hpos hk => ?_
      have hk' := hbefore (k - 1) (by omega)
      rwa [Nat.sub_add_cancel hpos] at hk'
    · next hnone =>
      -- all the numbered forms would be among fewer names
      have hlt := lt_length_of_taken hbase fun k hk => by
        simpa using List.find?_eq_none.1 hnone k (List.mem_range.2 hk)
      omega

theorem Given.notMem {given : String} (h : Given taken name given) : given ∉ taken := by
  cases h with
  | free hfree => exact hfree
  | first n _ _ _ hfree _ => exact hfree

theorem fresh_notMem (taken : List String) (name : String) : fresh taken name ∉ taken :=
  (fresh_given taken name).notMem

/-- The rule leaves no choice. -/
theorem Given.unique {given given' : String} (h : Given taken name given)
    (h' : Given taken name given') : given = given' := by
  cases h with
  | free hfree =>
    cases h' with
    | free => rfl
    | first _ hbase => exact absurd hbase hfree
  | first n hbase hpos _ hfree hbefore =>
    cases h' with
    | free hfree' => exact absurd hbase hfree'
    | first n' _ hpos' _ hfree' hbefore' =>
      rcases Nat.lt_trichotomy n n' with hlt | rfl | hlt
      · exact absurd (hbefore' n hpos hlt) hfree
      · rfl
      · exact absurd (hbefore n' hpos' hlt) hfree'

/-- The names that objects get that ask one after the other for `names`. -/
inductive GivenAll : List String → List String → List String → Prop
  | nil (taken : List String) : GivenAll taken [] []
  | cons {taken names givens : List String} {name given : String} (h : Given taken name given)
      (hrest : GivenAll (taken ++ [given]) names givens) :
      GivenAll taken (name :: names) (given :: givens)

theorem GivenAll.append {names names' givens givens' : List String}
    (h : GivenAll taken names givens) (h' : GivenAll (taken ++ givens) names' givens') :
    GivenAll taken (names ++ names') (givens ++ givens') := by
  induction h with
  | nil taken => rwa [List.append_nil] at h'
  | cons hgiven _ ih => exact .cons hgiven (ih (by rwa [List.append_assoc]))

/-! ## The record of names -/

/-- The names recorded as taken are the names in use, each of which is used once. -/
structure Exact (taken used : List String) : Prop where
  distinct : used.Nodup
  mem_iff : ∀ name, name ∈ taken ↔ name ∈ used

namespace Exact

theorem nil : Exact [] [] := ⟨List.nodup_nil, fun _ => Iff.rfl⟩

/-- An object more, under a name that was free. -/
theorem push (h : Exact taken used) (hfree : name ∉ taken) :
    Exact (taken ++ [name]) (used ++ [name]) := by
  constructor
  · rw [List.nodup_append]
    refine ⟨h.distinct, List.nodup_singleton name, fun a ha b hb heq => hfree ?_⟩
    rw [h.mem_iff, ← List.mem_singleton.1 hb, ← heq]
    exact ha
  · intro other
    rw [List.mem_append, List.mem_append, h.mem_iff]

theorem pushAll {names givens : List String} (hgiven : GivenAll taken names givens)
    (h : Exact taken used) : Exact (taken ++ givens) (used ++ givens) := by
  induction hgiven generalizing used with
  | nil taken => rwa [List.append_nil, List.append_nil]
  | cons hgiven _ ih =>
    have hrest := ih (h.push hgiven.notMem)
    rwa [List.append_assoc, List.append_assoc] at hrest

/-- Some objects go, and their names are given back. -/
theorem release (h : Exact taken used) {left gone : List String} (hleft : left.Sublist used)
    (hmem : ∀ name, name ∈ left ↔ name ∈ used ∧ name ∉ gone) :
    Exact (Names.release taken gone) left := by
  constructor
  · exact h.distinct.sublist hleft
  · intro name
    rw [mem_release, h.mem_iff, hmem]

end Exact

/-! ## Objects with numbers and names -/

/-- Names and numbers of a group of objects stand for each other: `nameOf` is the name of the object with
a number, `find?` looks an object up by its name, and `taken` are the names recorded as taken. -/
structure Unambiguous (taken : List String) (nameOf : Nat → Option String)
    (find? : String → Option Nat) : Prop where
  distinct : ∀ i j name, nameOf i = some name → nameOf j = some name → i = j
  taken_iff : ∀ name, name ∈ taken ↔ ∃ i, nameOf i = some name
  find?_iff : ∀ name i, find? name = some i ↔ nameOf i = some name

/-- A list of objects is searched from its start, so distinct names find their objects. -/
theorem Exact.unambiguous {β : Type} {l : List β} {nameOf : β → String}
    (h : Exact taken (l.map nameOf)) :
    Unambiguous taken (fun i => (l[i]?).map nameOf) fun name => l.findIdx? (nameOf · = name) := by
  have hnames (i : Nat) : (l[i]?).map nameOf = (l.map nameOf)[i]? := List.getElem?_map.symm
  have hdistinct {i j : Nat} {name : String} (hi : (l[i]?).map nameOf = some name)
      (hj : (l[j]?).map nameOf = some name) : i = j := by
    rw [hnames] at hi hj
    exact (List.getElem?_inj (List.getElem?_eq_some_iff.1 hi).1 h.distinct).1 (hi.trans hj.symm)
  constructor
  · intro i j name hi hj
    exact hdistinct hi hj
  · intro name
    rw [h.mem_iff, List.mem_iff_getElem?]
    simp only [hnames]
  · intro name i
    rw [List.findIdx?_eq_some_iff_getElem]
    constructor
    · rintro ⟨hlt, hname, -⟩
      rw [List.getElem?_eq_getElem hlt, Option.map_some, of_decide_eq_true hname]
    · intro hi
      obtain ⟨b, hb, hname⟩ := Option.map_eq_some_iff.1 hi
      obtain ⟨hlt, rfl⟩ := List.getElem?_eq_some_iff.1 hb
      refine ⟨hlt, decide_eq_true hname, fun j hj hmatch => ?_⟩
      have hjname : (l[j]?).map nameOf = some name := by
        rw [List.getElem?_eq_getElem (Nat.lt_trans hj hlt), Option.map_some, of_decide_eq_true hmatch]
      exact Nat.ne_of_lt hj (hdistinct hjname hi)

end TensorCompiler.Names
