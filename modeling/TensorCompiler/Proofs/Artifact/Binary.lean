import TensorCompiler.Artifact.Binary
import TensorCompiler.Proofs.Artifact.Range
import TensorCompiler.Proofs.Format.Binary

/-!
Artifacts as bytes: the codec of every type is lawful for the values in range. So an artifact is
read back from what it is written as, whatever follows, and from no beginning of it
(`Artifact.ofBytes?_toBytes`).
-/

namespace TensorCompiler

namespace Codec

variable {β γ : Type} {P : β → Prop}

/-! ## Types of constructors -/

theorem elementKind_lawful : elementKind.Lawful fun _ => True :=
  enumeration_lawful (fun b _ => by cases b <;> rfl) (by decide)

theorem access_lawful : access.Lawful fun _ => True :=
  enumeration_lawful (fun b _ => by cases b <;> rfl) (by decide)

theorem binaryOp_lawful : binaryOp.Lawful fun _ => True :=
  enumeration_lawful (fun b _ => by cases b <;> rfl) (by decide)

theorem unaryOp_lawful : unaryOp.Lawful fun _ => True :=
  enumeration_lawful (fun b _ => by cases b <;> rfl) (by decide)

theorem batchOp_lawful : batchOp.Lawful fun _ => True :=
  enumeration_lawful (fun b _ => by cases b <;> rfl) (by decide)

/-- The only way to reduce a batch. -/
theorem reduction_lawful :
    (enumeration (fun _ => 0) [Opcode.batchedReduce]).Lawful (· = .batchedReduce) :=
  enumeration_lawful (fun _ hb => hb ▸ rfl) (by decide)

/-- A position is read, and then what belongs to it. -/
theorem isLocal_tagged {branch : Nat × Bytes → Option (γ × Bytes)}
    (h : ∀ n, Local fun bytes => branch (n, bytes)) :
    Local fun bytes => tag.read bytes >>= branch :=
  tag_lawful.isLocal.bind h

theorem tag_write {branch : Nat × Bytes → Option (γ × Bytes)} {n : Nat} (hn : n < UInt32.size)
    (rest : Bytes) : (tag.read (tag.write n ++ rest) >>= branch) = branch (n, rest) := by
  rw [tag_lawful.read_write hn]
  rfl

theorem tagged_write {branch : Nat × Bytes → Option (γ × Bytes)} {n : Nat} (hn : n < UInt32.size)
    {c : Codec β} {f : β → γ} (hbranch : ∀ bytes, branch (n, bytes) = argument c f bytes)
    (h : c.Lawful P) {b : β} (hb : P b) (rest : Bytes) :
    (tag.read ((tag.write n ++ c.write b) ++ rest) >>= branch) = some (f b, rest) := by
  rw [List.append_assoc, tag_write hn, hbranch, argument, h.read_write hb]
  rfl

theorem storageRef_lawful : storageRef.Lawful StorageRef.InRange := by
  constructor
  · refine isLocal_tagged fun n => ?_
    match n with
    | 0 | 1 => exact isLocal_argument id_lawful.isLocal _
    | n + 2 => exact isLocal_fail
  · intro ref href rest
    cases ref with
    | var i => exact tagged_write (by decide) (fun _ => rfl) id_lawful href rest
    | placeholder i => exact tagged_write (by decide) (fun _ => rfl) id_lawful href rest

theorem bufferKind_lawful : bufferKind.Lawful BufferKind.InRange := by
  constructor
  · refine isLocal_tagged fun n => ?_
    match n with
    | 0 => exact isLocal_argument storageRef_lawful.isLocal _
    | 1 | 3 => exact isLocal_pure _
    | 2 => exact isLocal_argument id_lawful.isLocal _
    | n + 4 => exact isLocal_fail
  · intro kind hkind rest
    cases kind with
    | weight storage => exact tagged_write (by decide) (fun _ => rfl) storageRef_lawful hkind rest
    | activation => exact tag_write (by decide) rest
    | view source => exact tagged_write (by decide) (fun _ => rfl) id_lawful hkind rest
    | state => exact tag_write (by decide) rest

/-! ## Records -/

theorem tensorType_lawful : tensorType.Lawful TensorType.InRange :=
  (via_lawful (pair_lawful elementKind_lawful (list_lawful size_lawful)) fun _ => rfl).mono
    fun _ ht => ⟨trivial, ht⟩

theorem buffer_lawful : buffer.Lawful Buffer.InRange :=
  via_lawful (pair_lawful id_lawful
    (pair_lawful text_lawful (pair_lawful tensorType_lawful bufferKind_lawful))) fun _ => rfl

theorem operand_lawful : operand.Lawful Operand.InRange :=
  (via_lawful (pair_lawful id_lawful access_lawful) fun _ => rfl).mono fun _ ho => ⟨ho, trivial⟩

theorem window_lawful : window.Lawful Window.InRange :=
  via_lawful (pair_lawful size_lawful (pair_lawful size_lawful size_lawful)) fun _ => rfl

theorem convolution_lawful : convolution.Lawful Convolution.InRange :=
  via_lawful (pair_lawful size_lawful window_lawful) fun _ => rfl

theorem normalization_lawful : normalization.Lawful Normalization.InRange :=
  (via_lawful (pair_lawful size_lawful
    (pair_lawful single_lawful (pair_lawful single_lawful single_lawful))) fun _ => rfl).mono
    fun _ hp => ⟨hp, trivial, trivial, trivial⟩

theorem descent_lawful : descent.Lawful Descent.InRange :=
  (via_lawful (pair_lawful single_lawful (pair_lawful single_lawful
    (pair_lawful single_lawful (pair_lawful single_lawful size_lawful)))) fun _ => rfl).mono
    fun _ hp => ⟨trivial, trivial, trivial, trivial, hp⟩

theorem liveRange_lawful : liveRange.Lawful LiveRange.InRange :=
  via_lawful (pair_lawful size_lawful size_lawful) fun _ => rfl

theorem slot_lawful : slot.Lawful Slot.InRange :=
  (via_lawful (pair_lawful size_lawful (pair_lawful elementKind_lawful
    (pair_lawful size_lawful (pair_lawful size_lawful size_lawful)))) fun _ => rfl).mono
    fun _ hs => ⟨hs.1, trivial, hs.2⟩

theorem plan_lawful : plan.Lawful Plan.InRange :=
  via_lawful (pair_lawful (idMap_lawful liveRange_lawful) (pair_lawful (idMap_lawful size_lawful)
    (pair_lawful (idMap_lawful id_lawful)
      (pair_lawful (list_lawful slot_lawful) size_lawful)))) fun _ => rfl

/-! ## Instructions -/

theorem isLocal_readOpcode : Local readOpcode := by
  refine isLocal_tagged fun n => ?_
  match n with
  | 0 | 1 | 2 | 3 | 7 | 12 | 13 | 14 | 15 | 18 => exact isLocal_pure _
  | 4 => exact isLocal_argument single_lawful.isLocal _
  | 5 => exact isLocal_argument binaryOp_lawful.isLocal _
  | 6 => exact isLocal_argument unaryOp_lawful.isLocal _
  | 8 | 9 => exact isLocal_argument convolution_lawful.isLocal _
  | 10 | 11 => exact isLocal_argument window_lawful.isLocal _
  | 16 | 17 => exact isLocal_argument normalization_lawful.isLocal _
  | 19 => exact isLocal_argument reduction_lawful.isLocal _
  | 20 => exact isLocal_argument batchOp_lawful.isLocal _
  | 21 => exact isLocal_argument (list_lawful size_lawful).isLocal _
  | 22 => exact isLocal_argument descent_lawful.isLocal _
  | n + 23 => exact isLocal_fail

theorem opcode_lawful : opcode.Lawful Opcode.InRange := by
  refine ⟨isLocal_readOpcode, ?_⟩
  intro op hop rest
  cases op with
  | alloc | dealloc | view | copy | reluGrad | fullyConnected | fullyConnectedGrad | softMax
  | softMaxGrad | batchedMatMul => exact tag_write (by decide) rest
  | splat value => exact tagged_write (by decide) (fun _ => rfl) single_lawful trivial rest
  | binary op => exact tagged_write (by decide) (fun _ => rfl) binaryOp_lawful trivial rest
  | unary op => exact tagged_write (by decide) (fun _ => rfl) unaryOp_lawful trivial rest
  | conv p => exact tagged_write (by decide) (fun _ => rfl) convolution_lawful hop rest
  | convGrad p => exact tagged_write (by decide) (fun _ => rfl) convolution_lawful hop rest
  | maxPool w => exact tagged_write (by decide) (fun _ => rfl) window_lawful hop rest
  | maxPoolGrad w => exact tagged_write (by decide) (fun _ => rfl) window_lawful hop rest
  | normalization p => exact tagged_write (by decide) (fun _ => rfl) normalization_lawful hop rest
  | normalizationGrad p =>
    exact tagged_write (by decide) (fun _ => rfl) normalization_lawful hop rest
  | batchedReduce =>
    exact tagged_write (n := 19) (f := fun op => op) (by decide) (fun _ => rfl) reduction_lawful
      rfl rest
  | batched op => exact tagged_write (by decide) (fun _ => rfl) batchOp_lawful trivial rest
  | transpose perm =>
    exact tagged_write (by decide) (fun _ => rfl) (list_lawful size_lawful) hop rest
  | sgd p => exact tagged_write (by decide) (fun _ => rfl) descent_lawful hop rest

theorem instruction_lawful : instruction.Lawful Instruction.InRange :=
  via_lawful (pair_lawful opcode_lawful (list_lawful operand_lawful)) fun _ => rfl

theorem artifact_lawful : artifact.Lawful Artifact.InRange :=
  via_lawful (pair_lawful text_lawful (pair_lawful (list_lawful buffer_lawful)
    (pair_lawful (list_lawful instruction_lawful) plan_lawful))) fun _ => rfl

end Codec

namespace Artifact

/-- An artifact in range is read back from its bytes, whatever follows them, and no strict beginning
of them can be read; so of two artifacts neither encoding begins the other. -/
theorem ofBytes?_toBytes {a : Artifact} (h : a.InRange) :
    (∀ rest, ofBytes? (a.toBytes ++ rest) = some a) ∧
      (∀ bytes, bytes <+: a.toBytes → bytes ≠ a.toBytes → ofBytes? bytes = none) ∧
      ∀ b : Artifact, b.InRange → b ≠ a → ¬ a.toBytes <+: b.toBytes ∧ ¬ b.toBytes <+: a.toBytes := by
  refine ⟨?_, ?_, ?_⟩
  · intro rest
    rw [ofBytes?, toBytes, Codec.artifact_lawful.read_write h, Option.map_some]
  · intro bytes hbegin hne
    rw [ofBytes?, Codec.artifact_lawful.read_truncated h hbegin hne, Option.map_none]
  · intro b hb hne
    constructor
    · intro hbegin
      exact hne (Codec.artifact_lawful.eq_of_write h hb hbegin).symm
    · intro hbegin
      exact hne (Codec.artifact_lawful.eq_of_write hb h hbegin)

/-- Two artifacts that differ in the payload of a not-a-number. -/
theorem ofBytes?_toBytes_saved :
    ofBytes? ((Sample.saved ⟨0x7fc00001⟩).toBytes ++ [7]) = some (Sample.saved ⟨0x7fc00001⟩) ∧
      ofBytes? (Sample.saved ⟨0x7fc00001⟩).toBytes.dropLast = none ∧
      ¬ (Sample.saved ⟨0x7fc00001⟩).toBytes <+: (Sample.saved ⟨0x7fc00002⟩).toBytes := by
  have h := ofBytes?_toBytes (Sample.saved_inRange ⟨0x7fc00001⟩)
  have hlength : 0 < (Sample.saved ⟨0x7fc00001⟩).toBytes.length := Nat.zero_lt_succ _
  refine ⟨h.1 [7], h.2.1 _ (List.dropLast_prefix _) ?_, ?_⟩
  · intro heq
    have := congrArg List.length heq
    rw [List.length_dropLast] at this
    omega
  · exact (h.2.2 _ (Sample.saved_inRange _) (by decide)).1

end Artifact

end TensorCompiler
