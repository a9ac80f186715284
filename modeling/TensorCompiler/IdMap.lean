/-!
Finite maps whose keys are numbers of buffers, functions or placeholders. The entries are kept in
ascending order of their keys, so that a map has one form and is listed in one order. `get?_insert`
and `get?_erase` give the maps as functions.
-/

namespace TensorCompiler

structure IdMap (β : Type) where
  entries : List (Nat × β)
  ascending : entries.Pairwise fun a b => a.1 < b.1
deriving DecidableEq, Repr

namespace IdMap

variable {β : Type}

def empty : IdMap β := ⟨[], .nil⟩

instance : Inhabited (IdMap β) := ⟨empty⟩

def find : List (Nat × β) → Nat → Option β
  | [], _ => none
  | (k, v) :: r, i => if k = i then some v else find r i

def get? (m : IdMap β) (i : Nat) : Option β := find m.entries i

def contains (m : IdMap β) (i : Nat) : Bool := (m.get? i).isSome

def size (m : IdMap β) : Nat := m.entries.length

def keys (m : IdMap β) : List Nat := m.entries.map (·.1)

def values (m : IdMap β) : List β := m.entries.map (·.2)

/-- The entries with the value of `i` set, in the place that keeps them in order. -/
def place (i : Nat) (b : β) : List (Nat × β) → List (Nat × β)
  | [] => [(i, b)]
  | (k, v) :: r => if i < k then (i, b) :: (k, v) :: r else if i = k then (i, b) :: r
    else (k, v) :: place i b r

theorem mem_place {i : Nat} {b : β} {l : List (Nat × β)} {x : Nat × β} (h : x ∈ place i b l) :
    x = (i, b) ∨ x ∈ l := by
  induction l with
  | nil => simpa [place] using h
  | cons p r ih =>
    obtain ⟨k, v⟩ := p
    unfold place at h
    split at h
    · simpa using h
    · split at h
      · rcases List.mem_cons.1 h with h | h
        · exact .inl h
        · exact .inr (List.mem_cons_of_mem _ h)
      · rcases List.mem_cons.1 h with h | h
        · exact .inr (h ▸ List.mem_cons_self)
        · exact (ih h).imp_right (List.mem_cons_of_mem _)

theorem place_ascending {i : Nat} {b : β} {l : List (Nat × β)}
    (h : l.Pairwise fun a b => a.1 < b.1) : (place i b l).Pairwise fun a b => a.1 < b.1 := by
  induction l with
  | nil => simp [place]
  | cons p r ih =>
    obtain ⟨k, v⟩ := p
    have ⟨hk, hr⟩ := List.pairwise_cons.1 h
    unfold place
    split
    · next hlt =>
      refine List.pairwise_cons.2 ⟨?_, h⟩
      intro x hx
      rcases List.mem_cons.1 hx with rfl | hx
      · exact hlt
      · exact Nat.lt_trans hlt (hk x hx)
    · split
      · next heq => exact List.pairwise_cons.2 ⟨heq ▸ hk, hr⟩
      · refine List.pairwise_cons.2 ⟨?_, ih hr⟩
        intro x hx
        rcases mem_place hx with rfl | hx
        · show k < i
          omega
        · exact hk x hx

def insert (m : IdMap β) (i : Nat) (b : β) : IdMap β :=
  ⟨place i b m.entries, place_ascending m.ascending⟩

def erase (m : IdMap β) (i : Nat) : IdMap β :=
  ⟨m.entries.filter (·.1 ≠ i), m.ascending.filter _⟩

/-- The map that the entries give; of entries with the same key the last counts. -/
def ofList (l : List (Nat × β)) : IdMap β := l.foldl (fun m p => m.insert p.1 p.2) empty

theorem find_place (i j : Nat) (b : β) (l : List (Nat × β)) :
    find (place i b l) j = if i = j then some b else find l j := by
  induction l with
  | nil => simp [place, find]
  | cons p r ih =>
    obtain ⟨k, v⟩ := p
    unfold place
    split
    · rfl
    · split
      · next heq =>
        subst heq
        simp only [find]
        split <;> rfl
      · next hne =>
        simp only [find, ih]
        by_cases hkj : k = j
        · have : i ≠ j := by omega
          simp [hkj, this]
        · simp [hkj]

@[simp] theorem get?_empty (i : Nat) : (empty : IdMap β).get? i = none := rfl

theorem get?_insert (m : IdMap β) (i j : Nat) (b : β) :
    (m.insert i b).get? j = if i = j then some b else m.get? j :=
  find_place i j b m.entries

theorem get?_erase (m : IdMap β) (i j : Nat) :
    (m.erase i).get? j = if i = j then none else m.get? j := by
  rcases m with ⟨l, hl⟩
  simp only [get?, erase]
  clear hl
  induction l with
  | nil => simp [find]
  | cons p r ih =>
    obtain ⟨k, v⟩ := p
    by_cases hk : k = i
    · subst hk
      rw [List.filter_cons_of_neg (by simp), ih, find]
      split <;> simp_all
    · rw [List.filter_cons_of_pos (by simpa using hk), find, find, ih]
      by_cases hkj : k = j
      · have : i ≠ j := fun h => hk (hkj.trans h.symm)
        simp [hkj, this]
      · simp [hkj]

theorem get?_eq_some_iff (m : IdMap β) (i : Nat) (b : β) :
    m.get? i = some b ↔ (i, b) ∈ m.entries := by
  rcases m with ⟨l, hl⟩
  simp only [get?]
  induction l with
  | nil => simp [find]
  | cons p r ih =>
    obtain ⟨k, v⟩ := p
    have ⟨hk, hr⟩ := List.pairwise_cons.1 hl
    rw [find, List.mem_cons, Prod.mk.injEq]
    split
    · next heq =>
      subst heq
      constructor
      · intro h
        exact .inl ⟨rfl, (Option.some.inj h).symm⟩
      · rintro (⟨-, rfl⟩ | h)
        · rfl
        · exact absurd (hk _ h) (Nat.lt_irrefl _)
    · next hne =>
      rw [ih hr]
      exact ⟨.inr, fun h => h.resolve_left fun h => hne h.1.symm⟩

end IdMap

end TensorCompiler
