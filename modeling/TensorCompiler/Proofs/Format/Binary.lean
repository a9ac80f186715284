import Mathlib.Algebra.Ring.Nat
import Mathlib.Data.List.Basic
import TensorCompiler.Format.Binary
import TensorCompiler.Proofs.Maps

/-!
Laws of binary codecs. A codec is lawful for the values that fit when it reads back what it writes,
whatever follows (`read_write`), and when reading does not look beyond what it uses up (`isLocal`).
The combinators keep both laws. Truncated input is refused (`Lawful.read_truncated`), so no encoding
is the beginning of another (`Lawful.eq_of_write`).
-/

namespace TensorCompiler

namespace Codec

variable {β γ : Type} {P : β → Prop} {Q : γ → Prop}

/-- More bytes behind those that a reader uses up do not change what it reads. -/
def Local (read : Bytes → Option (β × Bytes)) : Prop :=
  ∀ ⦃bytes : Bytes⦄ ⦃b : β⦄ ⦃rest : Bytes⦄, read bytes = some (b, rest) →
    ∀ more, read (bytes ++ more) = some (b, rest ++ more)

/-- The laws of a codec for the values that fit its fields. -/
structure Lawful (c : Codec β) (Fits : β → Prop) : Prop where
  isLocal : Local c.read
  read_write : ∀ {b : β}, Fits b → ∀ rest, c.read (c.write b ++ rest) = some (b, rest)

namespace Lawful

variable {c : Codec β} {d : Codec γ}

/-- A strict beginning of what is written cannot be read. -/
theorem read_truncated (h : c.Lawful P) {b : β} (hb : P b) {bytes : Bytes}
    (hbegin : bytes <+: c.write b) (hne : bytes ≠ c.write b) : c.read bytes = none := by
  obtain ⟨more, hmore⟩ := hbegin
  cases hread : c.read bytes with
  | none => rfl
  | some p =>
    obtain ⟨b', rest⟩ := p
    -- what is missing would have to be left over by the reader of the whole
    have hwhole : c.read (c.write b) = some (b', rest ++ more) := hmore ▸ h.isLocal hread more
    have hwritten := h.read_write hb []
    rw [List.append_nil, hwhole] at hwritten
    have hnil : rest ++ more = [] := by simpa using congrArg (Option.map (·.2)) hwritten
    obtain ⟨-, rfl⟩ := List.append_eq_nil_iff.1 hnil
    exact absurd (by simpa using hmore) hne

/-- Values of which one encoding begins the other are the same. -/
theorem eq_of_write (h : c.Lawful P) {b b' : β} (hb : P b) (hb' : P b')
    (hbegin : c.write b <+: c.write b') : b = b' := by
  obtain ⟨more, hmore⟩ := hbegin
  have hread := h.read_write hb more
  have hread' := h.read_write hb' []
  rw [List.append_nil, ← hmore, hread] at hread'
  simpa using congrArg (Option.map (·.1)) hread'

theorem mono (h : c.Lawful P) {P' : β → Prop} (hP : ∀ b, P' b → P b) : c.Lawful P' :=
  ⟨h.isLocal, fun hb => h.read_write (hP _ hb)⟩

end Lawful

/-! ## Readers -/

theorem isLocal_fail : Local (fun _ => none : Bytes → Option (β × Bytes)) := nofun

theorem isLocal_pure (b : β) : Local fun bytes => some (b, bytes) := by
  intro bytes b' rest h more
  obtain ⟨rfl, rfl⟩ := Prod.mk.inj (Option.some.inj h)
  rfl

/-- A reader and then one that depends on what the first has read. -/
theorem Local.bind {read : Bytes → Option (β × Bytes)} {next : β → Bytes → Option (γ × Bytes)}
    (h : Local read) (hnext : ∀ b, Local (next b)) :
    Local fun bytes => (read bytes).bind fun p => next p.1 p.2 := by
  intro bytes g rest hread more
  obtain ⟨⟨b, left⟩, hb, hg⟩ := Option.bind_eq_some_iff.1 hread
  exact Option.bind_eq_some_iff.2 ⟨_, h hb more, hnext b hg more⟩

theorem isLocal_argument {c : Codec β} (h : Local c.read) (make : β → γ) :
    Local (argument c make) := by
  intro bytes g rest hread more
  obtain ⟨⟨b, left⟩, hb, hg⟩ := Option.map_eq_some_iff.1 hread
  obtain ⟨rfl, rfl⟩ := Prod.mk.inj hg
  rw [argument, h hb more]
  rfl

theorem isLocal_readMany {c : Codec β} (h : Local c.read) (n : Nat) : Local (readMany c n) := by
  induction n with
  | zero => exact isLocal_pure []
  | succ n ih => exact h.bind fun b => ih.bind fun bs => isLocal_pure (b :: bs)

/-! ## Numbers -/

theorem isLocal_readNat (width : Nat) : Local (readNat width) := by
  induction width with
  | zero => exact isLocal_pure 0
  | succ width ih =>
    intro bytes n rest hread more
    cases bytes with
    | nil => cases hread
    | cons b bytes =>
      obtain ⟨⟨m, left⟩, hm, hn⟩ := Option.map_eq_some_iff.1 hread
      obtain ⟨rfl, rfl⟩ := Prod.mk.inj hn
      simp only [List.cons_append, readNat, ih hm more, Option.map_some]

theorem readNat_writeNat {width n : Nat} (h : n < 256 ^ width) (rest : Bytes) :
    readNat width (writeNat width n ++ rest) = some (n, rest) := by
  induction width generalizing n with
  | zero => simp_all [readNat, writeNat]
  | succ width ih =>
    have hhigh : n / 256 < 256 ^ width := by
      rw [Nat.div_lt_iff_lt_mul (by decide)]
      rwa [Nat.pow_succ] at h
    have hlow : (UInt8.ofNat n).toNat + 256 * (n / 256) = n := by
      rw [UInt8.toNat_ofNat']
      omega
    simp only [writeNat, List.cons_append, readNat, ih hhigh, Option.map_some, hlow]

theorem nat_lawful (width : Nat) : (nat width).Lawful (· < 256 ^ width) :=
  ⟨isLocal_readNat width, readNat_writeNat⟩

theorem id_lawful : id.Lawful (· < UInt32.size) := nat_lawful 4

theorem size_lawful : size.Lawful (· < UInt64.size) := nat_lawful 8

theorem tag_lawful : tag.Lawful (· < UInt32.size) := nat_lawful 4

theorem single_lawful : single.Lawful fun _ => True := by
  have hread : Local (argument (nat 4) fun n => (⟨UInt32.ofNat n⟩ : Single)) :=
    isLocal_argument (nat_lawful 4).isLocal _
  refine ⟨hread, ?_⟩
  intro x _ rest
  have hbits : x.bits.toNat < 256 ^ 4 := x.bits.toNat_lt
  have hread := readNat_writeNat hbits rest
  simp only [single, hread, Option.map_some, UInt32.ofNat_toNat]

/-! ## Combinators -/

theorem pair_lawful {c : Codec β} {d : Codec γ} (hc : c.Lawful P) (hd : d.Lawful Q) :
    (pair c d).Lawful fun p => P p.1 ∧ Q p.2 := by
  refine ⟨hc.isLocal.bind fun b => hd.isLocal.bind fun g => isLocal_pure (b, g), ?_⟩
  intro p hp rest
  simp [pair, hc.read_write hp.1, hd.read_write hp.2]

theorem via_lawful {c : Codec β} (h : c.Lawful P) {give : γ → β} {take : β → γ}
    (htake : ∀ g, take (give g) = g) : (c.via give take).Lawful fun g => P (give g) := by
  refine ⟨isLocal_argument h.isLocal take, ?_⟩
  intro g hg rest
  simp [via, h.read_write hg, htake]

theorem list_lawful {c : Codec β} (h : c.Lawful P) :
    (list c).Lawful fun bs => bs.length < UInt64.size ∧ ∀ b ∈ bs, P b := by
  have hmany (bs : List β) (hbs : ∀ b ∈ bs, P b) (rest : Bytes) :
      readMany c bs.length (bs.flatMap c.write ++ rest) = some (bs, rest) := by
    induction bs with
    | nil => rfl
    | cons b bs ih =>
      obtain ⟨hb, hbs⟩ := List.forall_mem_cons.1 hbs
      simp [readMany, h.read_write hb, ih hbs]
  refine ⟨size_lawful.isLocal.bind fun n => isLocal_readMany h.isLocal n, ?_⟩
  intro bs hbs rest
  simp [list, size_lawful.read_write hbs.1, hmany bs hbs.2]

/-- The bytes of an array, listed from position `i` on behind those collected so far. -/
theorem toList_loop (bytes : ByteArray) (i : Nat) (r : Bytes) :
    ByteArray.toList.loop bytes i r = r.reverse ++ bytes.data.toList.drop i := by
  fun_induction ByteArray.toList.loop bytes i r with
  | case1 i r h ih =>
    have hget : bytes.data.toList.drop i = bytes.get! i :: bytes.data.toList.drop (i + 1) := by
      have hi : i < bytes.data.size := h
      rw [List.drop_eq_getElem_cons (by simpa using hi), Array.getElem_toList,
        ByteArray.get!, getElem!_pos bytes.data i hi]
    rw [ih, hget, List.reverse_cons, List.append_assoc, List.singleton_append]
  | case2 i r h =>
    have hi : ¬ i < bytes.data.size := h
    rw [List.drop_eq_nil_of_le (by simpa using Nat.le_of_not_lt hi), List.append_nil]

theorem toList_eq (bytes : ByteArray) : bytes.toList = bytes.data.toList :=
  toList_loop bytes 0 []

/-- The bytes of a text are well-formed and stand for it. -/
theorem fromUTF8?_toUTF8 (s : String) : String.fromUTF8? s.toUTF8 = some s := by
  rw [String.fromUTF8?, String.toUTF8_eq_toByteArray, dif_pos s.isValidUTF8]
  rfl

theorem text_lawful : text.Lawful (·.utf8ByteSize < UInt64.size) := by
  have hnext (n : Nat) : Local fun bytes => if bytes.length < n then none else
      (String.fromUTF8? ⟨(bytes.take n).toArray⟩).bind fun s => some (s, bytes.drop n) := by
    intro bytes s rest hread more
    dsimp only at hread ⊢
    split at hread
    · cases hread
    · next hlength =>
      have hle : n ≤ bytes.length := Nat.le_of_not_lt hlength
      have hmore : ¬ (bytes ++ more).length < n := by
        rw [List.length_append]
        omega
      obtain ⟨s', hs, hs'⟩ := Option.bind_eq_some_iff.1 hread
      obtain ⟨rfl, rfl⟩ := Prod.mk.inj (Option.some.inj hs')
      simp only [hmore, if_false, List.take_append_of_le_length hle, hs, Option.bind_some,
        List.drop_append_of_le_length hle]
  refine ⟨size_lawful.isLocal.bind hnext, ?_⟩
  intro s hs rest
  have hlength : s.toUTF8.toList.length = s.toUTF8.size := by
    rw [toList_eq, Array.length_toList, ByteArray.size_data]
  have hbytes : (⟨s.toUTF8.toList.toArray⟩ : ByteArray) = s.toUTF8 := by
    rw [toList_eq, Array.toArray_toList]
  have hshort : ¬ (s.toUTF8.toList ++ rest).length < s.toUTF8.size := by
    rw [List.length_append, hlength]
    omega
  have hsize := size_lawful.read_write (b := s.toUTF8.size) hs (s.toUTF8.toList ++ rest)
  simp only [text, List.append_assoc, hsize, Option.bind_eq_bind, Option.bind_some, hshort,
    if_false, List.take_left' hlength, List.drop_left' hlength, hbytes, fromUTF8?_toUTF8]
  rfl

/-- The entries of a map, inserted in their order, give the map. -/
theorem idMap_lawful {c : Codec β} (h : c.Lawful P) : (idMap c).Lawful fun m =>
    m.entries.length < UInt64.size ∧ ∀ p ∈ m.entries, p.1 < UInt32.size ∧ P p.2 :=
  via_lawful (list_lawful (pair_lawful id_lawful h)) IdMap.ofList_entries

theorem enumeration_lawful {position : β → Nat} {constructors : List β}
    (hposition : ∀ b, P b → constructors[position b]? = some b)
    (hlength : constructors.length < UInt32.size) :
    (enumeration position constructors).Lawful P := by
  have hnext (n : Nat) : Local fun bytes =>
      constructors[n]?.bind fun b => some (b, bytes) := by
    cases constructors[n]? with
    | none => exact isLocal_fail
    | some b => exact isLocal_pure b
  refine ⟨tag_lawful.isLocal.bind hnext, ?_⟩
  intro b hb rest
  have hlt : position b < UInt32.size :=
    Nat.lt_trans (List.getElem?_eq_some_iff.1 (hposition b hb)).1 hlength
  simp [enumeration, tag_lawful.read_write hlt, hposition b hb]

end Codec

end TensorCompiler
