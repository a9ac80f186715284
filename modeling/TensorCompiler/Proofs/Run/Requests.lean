import TensorCompiler.Proofs.Run.Typed

/-!
The memory of a run as a store, for every artifact and memory, consistent or not. A `Request` is a read
or a write, and `Memory.after` is the memory after a sequence of them, failures included. What a write
has done is `Memory.write_ok`; from it, what is read afterwards through each buffer; and over a sequence,
that each location has what the last write to it has put there (`payload_after`).
-/

namespace TensorCompiler

variable {α : Type}

/-- A read of a buffer, or a write of a tensor into one. -/
inductive Request (α : Type) where
  | read (buffer : Nat)
  | write (buffer : Nat) (t : Tensor α)

/-- The answer to a request, and the memory after it, which outlives a failure. -/
def Request.run (a : Artifact) (m : Memory α) :
    Request α → Except ExecutionFault (Option (Tensor α)) × Memory α
  | read b => ((m.read a b).map some, m)
  | write b t =>
    match m.write a b t with
    | .ok m' => (.ok none, m')
    | .error fault => (.error fault, m)

/-- The elements that a request puts at a location. -/
def Request.written (a : Artifact) (m : Memory α) (location : Location) :
    Request α → Option (Payload α)
  | read _ => none
  | write b t =>
    match m.write a b t with
    | .ok _ => if a.locate b = .ok location then some t.payload else none
    | .error _ => none

namespace Memory

variable {a : Artifact} {m m' : Memory α} {b b' : Nat} {t u : Tensor α}

/-- The memory after requests in order, failures included. -/
def after (a : Artifact) (m : Memory α) : List (Request α) → Memory α
  | [] => m
  | r :: rs => after a (r.run a m).2 rs

/-- The elements that the last write to a location has put there. -/
def lastWritten (a : Artifact) (location : Location) : Memory α → List (Request α) →
    Option (Payload α)
  | _, [] => none
  | m, r :: rs => (lastWritten a location (r.run a m).2 rs).or (r.written a m location)

/-! ## One write -/

theorem write_eq_store (h : a.typeOf b = .ok t.type) : m.write a b t = m.store a b t.payload := by
  unfold store
  rw [h]
  simp only [bind, Except.bind, Tensor.ofPayload_eq_ok.2 ⟨rfl, rfl⟩, Except.mapError]

/-- What a write that succeeds has found and done. -/
theorem write_ok (h : m.write a b t = .ok m') : a.typeOf b = .ok t.type ∧
    ∃ location target updated, a.locate b = .ok location ∧ m.get? location = some target ∧
      updated.type = target.type ∧ updated.payload = t.payload ∧ m' = m.set updated location := by
  have htype : a.typeOf b = .ok t.type := by
    unfold write at h
    cases hb : a.typeOf b with
    | error e =>
      rw [hb] at h
      cases h
    | ok expected =>
      by_cases hne : t.type = expected
      · rw [hne]
      · rw [hb] at h
        simp only [bind, Except.bind, ne_eq, hne, not_false_eq_true, if_true] at h
        cases h
  rw [write_eq_store htype] at h
  obtain ⟨-, location, target, updated, -, -, hlocate, htarget, hupdated, hpayload, rfl⟩ := store_ok h
  exact ⟨htype, location, target, updated, hlocate, htarget, hupdated, hpayload, rfl⟩

theorem source_of_locate {location : Location} (h : a.locate b = .ok location) :
    m.source a b = (m.fetch location).map Tensor.payload := by
  unfold source
  rw [h]
  cases hfetch : m.fetch location <;>
    simp [bind, Except.bind, hfetch, Except.map, pure, Except.pure]

theorem source_of_get? {location : Location} (hlocate : a.locate b = .ok location)
    (h : m.get? location = some t) : m.source a b = .ok t.payload := by
  simp only [source_of_locate hlocate, fetch, h, Except.map]

/-- The same is read where no location differs that the buffer has. -/
theorem read_of_get? (h : ∀ location, a.locate b = .ok location →
    m'.get? location = m.get? location) : m'.read a b = m.read a b := by
  refine read_congr rfl ?_
  cases hlocate : a.locate b with
  | error e => simp only [source, hlocate, bind, Except.bind]
  | ok location => simp only [source_of_locate hlocate, fetch, h location hlocate]

/-- A read succeeds with the elements at the location, if they fit the type of the buffer. -/
theorem read_ok_iff : m.read a b = .ok t ↔ a.typeOf b = .ok t.type ∧
    m.source a b = .ok t.payload := by
  rw [read_eq_source]
  simp only [bind_ok_iff, mapError_ok_iff, Tensor.ofPayload_eq_ok]
  constructor
  · rintro ⟨_, htype, _, hsource, rfl, rfl⟩
    exact ⟨htype, hsource⟩
  · rintro ⟨htype, hsource⟩
    exact ⟨_, htype, _, hsource, rfl, rfl⟩

/-- After a write, a buffer at the written location shows the elements that were written. -/
theorem source_write (h : m.write a b t = .ok m') (hsame : a.locate b' = a.locate b) :
    m'.source a b' = .ok t.payload := by
  obtain ⟨-, location, target, updated, hlocate, htarget, -, hpayload, rfl⟩ := write_ok h
  have hget : (m.set updated location).get? location = some updated := by
    rw [get?_set htarget, if_pos rfl]
  rw [source_of_get? (hsame.trans hlocate) hget, hpayload]

theorem read_write_self (h : m.write a b t = .ok m') : m'.read a b = .ok t :=
  read_ok_iff.2 ⟨(write_ok h).1, source_write h rfl⟩

/-- A buffer that could be read at the location shows the new elements under its own type. -/
theorem read_write_same (h : m.write a b t = .ok m') (hsame : a.locate b' = a.locate b)
    (hread : m.read a b' = .ok u) (ht : t.Held) (hu : u.Held) :
    ∃ u', m'.read a b' = .ok u' ∧ u'.type = u.type ∧ u'.payload = t.payload := by
  obtain ⟨htype, hsource⟩ := read_ok_iff.1 hread
  obtain ⟨-, location, target, updated, hlocate, htarget, hupdated, hpayload, -⟩ := write_ok h
  have hbefore := source_of_get? (hsame.trans hlocate) htarget
  have htarget' : target.payload = u.payload := Except.ok.inj (hbefore.symm.trans hsource)
  -- the elements before and after are those of tensors of one type, so both fit the buffer
  have hkind : t.payload.kind = u.payload.kind := by
    rw [← hpayload, updated.payload_fits.1, hupdated, ← htarget', target.payload_fits.1]
  have hsize : t.payload.size = u.payload.size := by
    have hbound : updated.Held := by rwa [Tensor.Held, hpayload]
    have hbound' : target.Held := by rwa [Tensor.Held, htarget']
    rw [← hpayload, hbound.size_eq, hupdated, ← hbound'.size_eq, htarget']
  have hfits : t.payload.Fits u.type := u.payload_fits.of_size hkind hsize
  obtain ⟨u', -, hu', hpayload'⟩ := Tensor.ofPayload_of_fits hfits
  refine ⟨u', read_ok_iff.2 ⟨hu' ▸ htype, ?_⟩, hu', hpayload'⟩
  rw [source_write h hsame, hpayload']

theorem read_write_other (h : m.write a b t = .ok m') (hother : a.locate b' ≠ a.locate b) :
    m'.read a b' = m.read a b' := by
  obtain ⟨-, location, target, updated, hlocate, htarget, -, -, rfl⟩ := write_ok h
  refine read_of_get? fun location' hlocate' => ?_
  have hne : location' ≠ location := fun heq => hother (hlocate'.trans (heq ▸ hlocate.symm))
  rw [get?_set htarget, if_neg hne]

theorem alike_write (h : m.write a b t = .ok m') : Alike m m' := by
  obtain ⟨-, location, target, updated, -, htarget, hupdated, -, rfl⟩ := write_ok h
  exact Alike.set htarget hupdated

/-! ## Requests -/

theorem run_write_ok (h : m.write a b t = .ok m') :
    (Request.write b t).run a m = (.ok none, m') := by
  simp only [Request.run, h]

theorem run_write_error {fault : ExecutionFault} (h : m.write a b t = .error fault) :
    (Request.write b t).run a m = (.error fault, m) := by
  simp only [Request.run, h]

/-- A request leaves a tensor of the same type at every location. -/
theorem alike_run (a : Artifact) (m : Memory α) (r : Request α) : Alike m (r.run a m).2 := by
  cases r with
  | read b => exact Alike.refl m
  | write b t =>
    cases h : m.write a b t with
    | ok m' =>
      rw [run_write_ok h]
      exact alike_write h
    | error fault =>
      rw [run_write_error h]
      exact Alike.refl m

theorem alike_after (a : Artifact) (m : Memory α) (rs : List (Request α)) :
    Alike m (m.after a rs) := by
  induction rs generalizing m with
  | nil => exact Alike.refl m
  | cons r rs ih => exact (alike_run a m r).trans (ih _)

/-- A location has the elements that a request has put there, or those it had. -/
theorem payload_run (a : Artifact) (m : Memory α) (r : Request α) (location : Location) :
    ((r.run a m).2.get? location).map Tensor.payload =
      (r.written a m location).or ((m.get? location).map Tensor.payload) := by
  cases r with
  | read b => rfl
  | write b t =>
    cases h : m.write a b t with
    | error fault => simp only [run_write_error h, Request.written, h, Option.none_or]
    | ok m' =>
      obtain ⟨-, location', target, updated, hlocate, htarget, -, hpayload, rfl⟩ := write_ok h
      simp only [run_write_ok h, Request.written, h, get?_set htarget, hlocate, Except.ok.injEq]
      by_cases heq : location = location'
      · rw [if_pos heq, if_pos heq.symm, Option.map_some, hpayload, Option.some_or]
      · rw [if_neg heq, if_neg (Ne.symm heq), Option.none_or]

/-- After a sequence of requests a location has the elements of the last write to it, or those it had
before. -/
theorem payload_after (a : Artifact) (location : Location) (m : Memory α) (rs : List (Request α)) :
    ((m.after a rs).get? location).map Tensor.payload =
      (lastWritten a location m rs).or ((m.get? location).map Tensor.payload) := by
  induction rs generalizing m with
  | nil => rfl
  | cons r rs ih => rw [after, ih, payload_run, lastWritten, Option.or_assoc]

/-- What is read after a sequence of requests. -/
theorem read_after {location : Location} (hlocate : a.locate b = .ok location)
    (rs : List (Request α)) : (m.after a rs).read a b =
      match lastWritten a location m rs with
      | some p => do
        let type ← a.typeOf b
        (Tensor.ofPayload type p).mapError .tensor
      | none => m.read a b := by
  have hpayload := payload_after a location m rs
  split
  · next p hp =>
    rw [hp, Option.some_or, Option.map_eq_some_iff] at hpayload
    obtain ⟨t, ht, rfl⟩ := hpayload
    rw [read_eq_source, source_of_get? hlocate ht]
    rfl
  · next hp =>
    rw [hp, Option.none_or] at hpayload
    refine read_congr rfl ?_
    simp only [source_of_locate hlocate, fetch]
    cases hafter : (m.after a rs).get? location <;> cases hbefore : m.get? location <;>
      simp_all [Except.map]

/-- The memory of a run is a well-behaved store, for every artifact, every memory and every sequence of
requests. Tensors keep their types; a buffer shows the last elements written to its location, under its
own type, and what it showed before if there are none; a read changes nothing, nor does a write that
fails; and after a write that succeeds its buffer reads as what was written, a buffer of the same location
that could be read shows the written elements, if these and its own were no more than words count, and
all others read as before. -/
theorem requests_lawful (a : Artifact) (m : Memory α) (rs : List (Request α)) :
    let now := m.after a rs
    Alike m now ∧
    (∀ b location, a.locate b = .ok location → now.read a b =
      match lastWritten a location m rs with
      | some p => do
        let type ← a.typeOf b
        (Tensor.ofPayload type p).mapError .tensor
      | none => m.read a b) ∧
    (∀ b, (Request.read b).run a now = ((now.read a b).map some, now)) ∧
    ∀ b t, match now.write a b t with
      | .error fault => (Request.write b t).run a now = (.error fault, now)
      | .ok later => (Request.write b t).run a now = (.ok none, later) ∧ Alike now later ∧
        later.read a b = .ok t ∧
        (∀ b' u, a.locate b' = a.locate b → now.read a b' = .ok u → t.Held → u.Held →
          ∃ u', later.read a b' = .ok u' ∧ u'.type = u.type ∧ u'.payload = t.payload) ∧
        ∀ b', a.locate b' ≠ a.locate b → later.read a b' = now.read a b' := by
  intro now
  refine ⟨alike_after a m rs, fun b location hlocate => read_after hlocate rs, fun b => rfl,
    fun b t => ?_⟩
  cases h : now.write a b t with
  | error fault => exact run_write_error h
  | ok later =>
    refine ⟨run_write_ok h, alike_write h, read_write_self h, ?_, ?_⟩
    · exact fun b' u hsame hread => read_write_same h hsame hread
    · exact fun b' hother => read_write_other h hother

end Memory

namespace Sample

/-- Two types over one placeholder, a third that does not fit it, optimizer state, an activation
without a slot, and a view whose root is another view. -/
def tangled : Artifact where
  name := "tangled"
  buffers := [
    ⟨0, "row", .float [2], .weight (.placeholder 0)⟩,
    ⟨1, "column", .float [2, 1], .weight (.placeholder 0)⟩,
    ⟨2, "wide", .float [3], .weight (.placeholder 0)⟩,
    ⟨3, "momentum", .float [2], .state⟩,
    ⟨4, "lost", .float [2], .activation⟩,
    ⟨5, "view", .float [2], .view 4⟩,
    ⟨6, "loop", .float [2], .view 5⟩]
  instructions := []
  plan := ⟨.empty, .empty, .ofList [(6, 5)], [], 0⟩

/-- Requests that fail and one that does not, and then a write that shows through the second buffer of
its placeholder and nowhere else. -/
theorem requests_lawful_tangled :
    let pair (x y : Single) : Tensor Single := .floats ⟨[2], #[x, y], .inl rfl⟩
    let wide : Tensor Single := .zeros (.float [3])
    let m : Memory Single := .start tangled [] (IdMap.empty.insert 0 (pair 0 0))
      (IdMap.empty.insert 3 (pair 1 1))
    let now := m.after tangled [.write 2 wide, .read 6, .write 3 (pair 0 1)]
    ∃ later, now.write tangled 0 (pair 1 0) = .ok later ∧
      later.read tangled 0 = .ok (pair 1 0) ∧
      (∃ column, later.read tangled 1 = .ok column ∧ column.type = .float [2, 1] ∧
        column.payload = (pair 1 0).payload) ∧
      later.read tangled 3 = .ok (pair 0 1) ∧
      later.read tangled 6 = .error (.unresolvedView "view") := by
  intro pair wide m now
  obtain ⟨later, hlater⟩ : ∃ later, now.write tangled 0 (pair 1 0) = .ok later := ⟨_, rfl⟩
  obtain ⟨-, hnow, -, hwrite⟩ := Memory.requests_lawful tangled m
    [.write 2 wide, .read 6, .write 3 (pair 0 1)]
  have hlaw := hwrite 0 (pair 1 0)
  rw [show now.write tangled 0 (pair 1 0) = .ok later from hlater] at hlaw
  obtain ⟨-, -, hself, hsame, hother⟩ := hlaw
  refine ⟨later, hlater, hself, ?_, ?_, ?_⟩
  · exact hsame 1 (.floats ⟨[2, 1], #[0, 0], .inl rfl⟩) rfl rfl (by decide) (by decide)
  · exact (hother 3 (by decide)).trans (hnow 3 (.state 3) rfl)
  · exact (hother 6 (by decide)).trans rfl

end Sample

end TensorCompiler
