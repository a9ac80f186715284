import TensorCompiler.Proofs.Run.Frames
import TensorCompiler.Proofs.Run.Slots

/-!
Two artifacts that both have room for a stream run it in step. What is outside the slots is equal in both
memories, as far as it is compared, and every activation that is alive shows the same elements, though
not in the same slot. One store keeps this (`store_agree`), so one instruction does (`execute_agree`),
and the whole stream (`runFrom_agree`).
-/

namespace TensorCompiler.Lowering

open TensorCompiler.Lowering.Stream TensorCompiler.Instruction

variable {α : Type} {s : Storage} {f : Function} {reuse : Bool} {st : Stream} {a a' : Artifact}
  {outer : Location → Prop} {shown shown' : Lifetime → Prop} {m m' : Memory α} {j : Nat}
  {x : Instruction}

/-- The activation is defined before instruction `j`, and accessed by it or later. -/
def Live (j : Nat) (l : Lifetime) : Prop := l.first < j ∧ j ≤ l.last

/-- The locations that are compared are no slots; those of the stream's storage are among them. -/
structure Surrounds (st : Stream) (outer : Location → Prop) : Prop where
  ne_slot : ∀ {location : Location}, outer location → ∀ k, location ≠ .slot k
  located : ∀ {b : Nat} {location : Location}, st.Located b location → outer location

/-- Both memories show the same at the locations that are compared and in the activations in `shown`. -/
structure Agree (st : Stream) (a a' : Artifact) (outer : Location → Prop) (shown : Lifetime → Prop)
    (m m' : Memory α) : Prop where
  outside : ∀ {location : Location}, outer location → m.get? location = m'.get? location
  fits : m.SlotsFit a
  fits' : m'.SlotsFit a'
  source : ∀ l ∈ lifetimes st, shown l → m.source a l.buffer = m'.source a' l.buffer

theorem Agree.mono (h : Agree st a a' outer shown m m')
    (himp : ∀ l ∈ lifetimes st, shown' l → shown l) : Agree st a a' outer shown' m m' :=
  ⟨h.outside, h.fits, h.fits', fun l hl hshown => h.source l hl (himp l hl hshown)⟩

/-- Before the first instruction nothing is alive. -/
theorem start_agree [Zero α] {vars vars' : List (Tensor α)}
    {bindings bindings' state state' : IdMap (Tensor α)}
    (h : ∀ {location : Location}, outer location →
      (Memory.start a vars bindings state).get? location =
        (Memory.start a' vars' bindings' state').get? location) :
    Agree st a a' outer (Live 0) (.start a vars bindings state) (.start a' vars' bindings' state') :=
  ⟨h, Memory.start_slotsFit a _ _ _, Memory.start_slotsFit a' _ _ _, fun _ _ hl => nomatch hl.1⟩

section Agreement

variable (h : Lowered s f reuse st a) (h' : Hosts st a') (houter : Surrounds st outer)

include h h'

theorem typeOf_agree (hx : st.body[j]? = some x) {b : Nat} (hb : b ∈ x.buffers) :
    a.typeOf b = a'.typeOf b := by
  obtain ⟨n, types, -, -, he⟩ := h.emitted hx
  obtain ⟨o, ho, rfl⟩ := List.mem_map.1 hb
  have hlt := declared_of_accesses h.describes (accesses_of_emits hx he ho)
  have hd := List.getElem?_eq_getElem hlt
  rw [h.hosts.typed hd, h'.typed hd]

include houter

/-- An instruction reads the same in both memories. -/
theorem read_agree (hx : st.body[j]? = some x) (hagree : Agree st a a' outer (Live j) m m') {b : Nat}
    (hb : b ∈ x.sources) : m.read a b = m'.read a' b := by
  refine Memory.read_congr (typeOf_agree h h' hx (mem_buffers_of_mem_sources hb)) ?_
  rcases h.source_cases hx hb with ⟨l, hl, hroot, hlive⟩ | ⟨location, hlocated⟩
  · rw [source_root h h.hosts hl hroot, source_root h h' hl hroot]
    exact hagree.source l hl hlive
  · have hget := hagree.outside (houter.located hlocated)
    simp only [Memory.source, Memory.fetch, h.hosts.located hlocated, h'.located hlocated, bind,
      Except.bind, hget]

/-- One store. Whatever is shown is alive at instruction `j`, which has the buffer as a target. -/
theorem store_agree (hx : st.body[j]? = some x)
    (hshown : ∀ l ∈ lifetimes st, shown l → l.first ≤ j ∧ j ≤ l.last)
    (hagree : Agree st a a' outer shown m m') {b : Nat} (hb : b ∈ x.targets) (p : Payload α) :
    (∃ e, m.store a b p = .error e ∧ m'.store a' b p = .error e) ∨
      ∃ m₁ m₁', m.store a b p = .ok m₁ ∧ m'.store a' b p = .ok m₁' ∧
        Agree st a a' outer (fun l => shown l ∨ l.buffer = b) m₁ m₁' := by
  rcases h.target_cases hx hb with ⟨l, hl, rfl, hfirst⟩ | ⟨hother, location, hlocated⟩
  · obtain ⟨d, hd, -⟩ := (h.alive l hl).declared
    cases hp : Tensor.ofPayload d.type p with
    | error e =>
      exact .inl ⟨.tensor e, Memory.store_of_misfit (h.hosts.typed hd) hp,
        Memory.store_of_misfit (h'.typed hd) hp⟩
    | ok t =>
      have hfits := Tensor.fits_of_ofPayload hp
      obtain ⟨m₁, hm, hpersist, hfit, hself, hrest⟩ :=
        store_activation h h.hosts hagree.fits hl hd hfits
      obtain ⟨m₁', hm', hpersist', hfit', hself', hrest'⟩ :=
        store_activation h h' hagree.fits' hl hd hfits
      have hj : l.first ≤ j ∧ j ≤ l.last := ⟨Nat.le_of_eq hfirst, hfirst ▸ (h.alive l hl).first_le⟩
      refine .inr ⟨m₁, m₁', hm, hm', fun hlocation => ?_, hfit, hfit', fun l' hl' hl'shown => ?_⟩
      · have hno := houter.ne_slot hlocation
        rw [Memory.get?_of_persistent hpersist hno, Memory.get?_of_persistent hpersist' hno,
          hagree.outside hlocation]
      · by_cases heq : l.buffer = l'.buffer
        · rw [← heq, hself, hself']
        · have hl'' := hl'shown.resolve_right (Ne.symm heq)
          have hj' := hshown l' hl' hl''
          rw [hrest hl' heq hj hj', hrest' hl' heq hj hj', hagree.source l' hl' hl'']
  · have hlocate := h.hosts.located hlocated
    have hget := hagree.outside (houter.located hlocated)
    rcases Memory.store_congr (typeOf_agree h h' hx (mem_buffers_of_mem_targets hb).2)
      (hlocate.trans (h'.located hlocated).symm)
      (fun hloc => Except.ok.inj (hlocate.symm.trans hloc) ▸ hget) (p := p) with herror |
      ⟨location', t, target, hloc, htarget, -, hm, hm'⟩
    · exact .inl herror
    · obtain rfl := Except.ok.inj (hlocate.symm.trans hloc)
      have hno := hlocated.ne_slot
      refine .inr ⟨_, _, hm, hm', fun hlocation => ?_, ?_, ?_, fun l hl hshown => ?_⟩
      · rw [Memory.get?_set htarget, Memory.get?_set (hget ▸ htarget), hagree.outside hlocation]
      · exact hagree.fits.set_persistent hno t
      · exact hagree.fits'.set_persistent hno t
      · rw [source_set_persistent h h.hosts hl hno, source_set_persistent h h' hl hno]
        exact hagree.source l hl (hshown.resolve_right (hother l hl))

/-- The stores of one instruction, up to the first that fails. -/
theorem commit_agree (hx : st.body[j]? = some x) (ws : List (Nat × Payload α)) :
    ∀ {shown : Lifetime → Prop} {m m' : Memory α},
      (∀ l ∈ lifetimes st, shown l → l.first ≤ j ∧ j ≤ l.last) →
      (∀ w ∈ ws, w.1 ∈ x.targets) → Agree st a a' outer shown m m' →
      (commit a m ws).1 = (commit a' m' ws).1 ∧
        (∀ {location : Location}, outer location →
          (commit a m ws).2.get? location = (commit a' m' ws).2.get? location) ∧
        ((commit a m ws).1 = .ok () →
          Agree st a a' outer (fun l => shown l ∨ l.buffer ∈ ws.map (·.1)) (commit a m ws).2
            (commit a' m' ws).2) := by
  induction ws with
  | nil =>
    intro shown m m' _ _ hagree
    exact ⟨rfl, hagree.outside, fun _ => hagree.mono (by simp)⟩
  | cons w ws ih =>
    intro shown m m' hshown hws hagree
    obtain ⟨b, p⟩ := w
    have hb : b ∈ x.targets := hws (b, p) List.mem_cons_self
    unfold commit
    rcases store_agree h h' houter hx hshown hagree hb p with
      ⟨e, hm, hm'⟩ | ⟨m₁, m₁', hm, hm', hagree₁⟩
    · rw [hm, hm']
      exact ⟨rfl, hagree.outside, fun hdone => by cases hdone⟩
    · rw [hm, hm']
      have hshown₁ : ∀ l ∈ lifetimes st, shown l ∨ l.buffer = b → l.first ≤ j ∧ j ≤ l.last := by
        rintro l hl (hl' | rfl)
        · exact hshown l hl hl'
        · rcases h.target_cases hx hb with ⟨l', hl', heq, rfl⟩ | ⟨hother, -⟩
          · obtain rfl := eq_of_buffer (lifetimes_nodup h.describes) hl' hl heq
            exact ⟨Nat.le_refl _, (h.alive _ hl').first_le⟩
          · exact absurd rfl (hother l hl)
      obtain ⟨hresult, hout, hok⟩ :=
        ih hshown₁ (fun w hw => hws w (List.mem_cons_of_mem _ hw)) hagree₁
      refine ⟨hresult, hout, fun hdone => (hok hdone).mono fun l _ hl => ?_⟩
      rw [List.map_cons, List.mem_cons] at hl
      tauto

variable [Scalar α]

/-- One instruction of the body. -/
theorem execute_agree (hx : st.body[j]? = some x) (hagree : Agree st a a' outer (Live j) m m') :
    (x.execute a m).1 = (x.execute a' m').1 ∧
      (∀ {location : Location}, outer location →
        (x.execute a m).2.get? location = (x.execute a' m').2.get? location) ∧
      ((x.execute a m).1 = .ok () →
        Agree st a a' outer (Live (j + 1)) (x.execute a m).2 (x.execute a' m').2) := by
  have heffects : x.effects a m = x.effects a' m' :=
    effects_congr (fun b hb => typeOf_agree h h' hx hb)
      fun b hb => read_agree h h' houter hx hagree hb
  unfold execute
  rw [← heffects]
  cases hw : x.effects a m with
  | error e => exact ⟨rfl, hagree.outside, nofun⟩
  | ok ws =>
    have htargets := effects_targets hw
    have hlive : ∀ l ∈ lifetimes st, Live j l → l.first ≤ j ∧ j ≤ l.last :=
      fun l _ hl => ⟨Nat.le_of_lt hl.1, hl.2⟩
    obtain ⟨hresult, hout, hok⟩ := commit_agree h h' houter hx ws hlive
      (fun w hw => htargets ▸ List.mem_map_of_mem hw) hagree
    refine ⟨congrArg (Except.mapError _) hresult, hout, fun hdone => ?_⟩
    refine (hok (mapError_ok_iff.1 hdone)).mono fun l hl hl' => ?_
    rcases Nat.lt_succ_iff_lt_or_eq.1 hl'.1 with hlt | rfl
    · exact .inl ⟨hlt, Nat.le_of_lt hl'.2⟩
    · obtain ⟨d, hd, hkind⟩ := (h.alive l hl).declared
      obtain ⟨i, r, hact⟩ := exists_activation h.describes hd hkind
      obtain ⟨y, hy, hwrite⟩ := (h.alive l hl).written
      obtain rfl := eq_of_write h.describes hact hy hwrite
      exact .inr (htargets ▸ mem_targets_of_activation h.verified h.describes hact hx)

/-- Instructions of the body from position `j` on. -/
theorem runFrom_agree (xs : List Instruction) : ∀ {j : Nat} {m m' : Memory α},
    xs <+: st.body.drop j → Agree st a a' outer (Live j) m m' →
      (a.runFrom m xs).1 = (a'.runFrom m' xs).1 ∧
        ∀ {location : Location}, outer location →
          (a.runFrom m xs).2.get? location = (a'.runFrom m' xs).2.get? location := by
  induction xs with
  | nil =>
    intro j m m' _ hagree
    exact ⟨rfl, hagree.outside⟩
  | cons x xs ih =>
    intro j m m' hxs hagree
    obtain ⟨rest, hrest⟩ := hxs
    obtain ⟨hx, hdrop⟩ := getElem?_of_drop hrest.symm
    obtain ⟨hresult, hout, hok⟩ := execute_agree h h' houter hx hagree
    unfold Artifact.runFrom
    generalize x.execute a m = left at *
    generalize x.execute a' m' = right at *
    obtain ⟨result, m₁⟩ := left
    obtain ⟨result', m₁'⟩ := right
    obtain rfl : result = result' := hresult
    cases result with
    | error e => exact ⟨rfl, hout⟩
    | ok _ => exact ih ⟨rest, hdrop.symm⟩ (hok rfl)

end Agreement

end TensorCompiler.Lowering
