import TensorCompiler.Artifact.Basic

/-!
Artifacts whose numbers fit the fields they are stored in: 32 bits for the number of a buffer,
variable or placeholder, and 64 bits for an extent, a position or a count. `Artifact.InRange` asks
for this everywhere; of single-precision numbers and of names it asks nothing.
-/

namespace TensorCompiler

abbrev IsId (n : Nat) : Prop := n < UInt32.size

abbrev IsSize (n : Nat) : Prop := n < UInt64.size

/-- The items are in range, and their number is. -/
abbrev ListInRange {β : Type} (Item : β → Prop) (l : List β) : Prop :=
  IsSize l.length ∧ ∀ b ∈ l, Item b

/-- The length of a text is that of its bytes. -/
abbrev TextInRange (s : String) : Prop := IsSize s.utf8ByteSize

abbrev IdMap.InRange {β : Type} (Item : β → Prop) (m : IdMap β) : Prop :=
  ListInRange (fun p => IsId p.1 ∧ Item p.2) m.entries

abbrev TensorType.InRange (t : TensorType) : Prop := ListInRange IsSize t.shape

def StorageRef.InRange : StorageRef → Prop
  | var id => IsId id
  | placeholder id => IsId id

def BufferKind.InRange : BufferKind → Prop
  | weight storage => storage.InRange
  | view source => IsId source
  | activation | state => True

abbrev Buffer.InRange (b : Buffer) : Prop :=
  IsId b.id ∧ TextInRange b.name ∧ b.type.InRange ∧ b.kind.InRange

abbrev Operand.InRange (o : Operand) : Prop := IsId o.buffer

abbrev Window.InRange (w : Window) : Prop := IsSize w.kernel ∧ IsSize w.stride ∧ IsSize w.pad

abbrev Convolution.InRange (p : Convolution) : Prop := IsSize p.depth ∧ p.toWindow.InRange

abbrev Normalization.InRange (p : Normalization) : Prop := IsSize p.halfWindow

abbrev Descent.InRange (p : Descent) : Prop := IsSize p.batchSize

def Opcode.InRange : Opcode → Prop
  | conv p | convGrad p => p.InRange
  | maxPool w | maxPoolGrad w => w.InRange
  | normalization p | normalizationGrad p => p.InRange
  | transpose perm => ListInRange IsSize perm
  | sgd p => p.InRange
  | _ => True

abbrev Instruction.InRange (i : Instruction) : Prop :=
  i.op.InRange ∧ ListInRange Operand.InRange i.operands

abbrev LiveRange.InRange (r : LiveRange) : Prop := IsSize r.start ∧ IsSize r.stop

abbrev Slot.InRange (s : Slot) : Prop :=
  IsSize s.id ∧ IsSize s.len ∧ IsSize s.offset ∧ IsSize s.bytes

abbrev Plan.InRange (p : Plan) : Prop :=
  p.liveRanges.InRange LiveRange.InRange ∧ p.assignments.InRange IsSize ∧
    p.viewRoots.InRange IsId ∧ ListInRange Slot.InRange p.slots ∧ IsSize p.totalBytes

abbrev Artifact.InRange (a : Artifact) : Prop :=
  TextInRange a.name ∧ ListInRange Buffer.InRange a.buffers ∧
    ListInRange Instruction.InRange a.instructions ∧ a.plan.InRange

instance : DecidablePred StorageRef.InRange
  | .var id => inferInstanceAs (Decidable (IsId id))
  | .placeholder id => inferInstanceAs (Decidable (IsId id))

instance : DecidablePred BufferKind.InRange
  | .weight storage => inferInstanceAs (Decidable storage.InRange)
  | .view source => inferInstanceAs (Decidable (IsId source))
  | .activation | .state => inferInstanceAs (Decidable True)

instance : DecidablePred Opcode.InRange
  | .conv p | .convGrad p => inferInstanceAs (Decidable p.InRange)
  | .maxPool w | .maxPoolGrad w => inferInstanceAs (Decidable w.InRange)
  | .normalization p | .normalizationGrad p => inferInstanceAs (Decidable p.InRange)
  | .transpose perm => inferInstanceAs (Decidable (ListInRange IsSize perm))
  | .sgd p => inferInstanceAs (Decidable p.InRange)
  | .alloc | .dealloc | .view | .copy | .splat _ | .binary _ | .unary _ | .reluGrad
  | .fullyConnected | .fullyConnectedGrad | .softMax | .softMaxGrad | .batchedMatMul
  | .batchedReduce | .batched _ => inferInstanceAs (Decidable True)

/-- An artifact with a name that needs escapes, the largest id and size, an empty activation with a
view of it, and `x` as a parameter. -/
def Sample.saved (x : Single) : Artifact where
  name := "größe \"1\"\n"
  buffers := [
    ⟨0, "w", .float [1], .weight (.var 0xffffffff)⟩,
    ⟨1, "none", .float [2, 0], .activation⟩,
    ⟨2, "", .float [], .view 1⟩,
    ⟨3, "w.momentum", .float [1], .state⟩]
  instructions := [
    ⟨.alloc, [⟨1, .write⟩]⟩,
    ⟨.splat x, [⟨1, .write⟩]⟩,
    ⟨.transpose [1, 0], []⟩,
    ⟨.sgd ⟨1, ⟨0x80000000⟩, x, x, 2⟩, [⟨0, .readWrite⟩, ⟨2, .read⟩, ⟨3, .readWrite⟩]⟩,
    ⟨.dealloc, [⟨1, .write⟩]⟩]
  plan := {
    liveRanges := .ofList [(1, ⟨0, 4⟩)]
    assignments := .ofList [(1, 0), (2, 0)]
    viewRoots := .ofList [(2, 1)]
    slots := [⟨0, .float, 0, 0, 0⟩]
    totalBytes := 0xffffffffffffffff }

theorem Sample.saved_inRange (x : Single) : (saved x).InRange :=
  of_decide_eq_true rfl

end TensorCompiler
