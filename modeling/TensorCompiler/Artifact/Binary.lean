import TensorCompiler.Artifact.Basic
import TensorCompiler.Format.Binary

/-!
Artifacts as bytes: the codec of every type, from the fields in their order; a constructor is
written as its position and then its argument.
-/

namespace TensorCompiler

namespace Codec

def elementKind : Codec ElementKind :=
  enumeration (fun | .float => 0 | .index => 1) [.float, .index]

def tensorType : Codec TensorType :=
  (pair elementKind (list size)).via (fun t => (t.kind, t.shape)) fun p => ⟨p.1, p.2⟩

def access : Codec Access :=
  enumeration (fun | .read => 0 | .write => 1 | .readWrite => 2) [.read, .write, .readWrite]

def binaryOp : Codec BinaryOp :=
  enumeration (fun | .add => 0 | .sub => 1 | .mul => 2) [.add, .sub, .mul]

def unaryOp : Codec UnaryOp :=
  enumeration (fun | .relu => 0 | .sigmoid => 1 | .tanh => 2) [.relu, .sigmoid, .tanh]

def batchOp : Codec BatchOp := enumeration (fun | .add => 0 | .mul => 1) [.add, .mul]

def storageRef : Codec StorageRef where
  write
    | .var i => tag.write 0 ++ id.write i
    | .placeholder i => tag.write 1 ++ id.write i
  read bytes := do
    match ← tag.read bytes with
    | (0, bytes) => argument id .var bytes
    | (1, bytes) => argument id .placeholder bytes
    | _ => none

def bufferKind : Codec BufferKind where
  write
    | .weight storage => tag.write 0 ++ storageRef.write storage
    | .activation => tag.write 1
    | .view source => tag.write 2 ++ id.write source
    | .state => tag.write 3
  read bytes := do
    match ← tag.read bytes with
    | (0, bytes) => argument storageRef .weight bytes
    | (1, bytes) => some (.activation, bytes)
    | (2, bytes) => argument id .view bytes
    | (3, bytes) => some (.state, bytes)
    | _ => none

def buffer : Codec Buffer :=
  (pair id (pair text (pair tensorType bufferKind))).via
    (fun b => (b.id, b.name, b.type, b.kind)) fun p => ⟨p.1, p.2.1, p.2.2.1, p.2.2.2⟩

def operand : Codec Operand :=
  (pair id access).via (fun o => (o.buffer, o.access)) fun p => ⟨p.1, p.2⟩

def window : Codec Window :=
  (pair size (pair size size)).via (fun w => (w.kernel, w.stride, w.pad))
    fun p => ⟨p.1, p.2.1, p.2.2⟩

def convolution : Codec Convolution :=
  (pair size window).via (fun p => (p.depth, p.toWindow)) fun p => ⟨p.2, p.1⟩

def normalization : Codec Normalization :=
  (pair size (pair single (pair single single))).via
    (fun p => (p.halfWindow, p.alpha, p.beta, p.k)) fun p => ⟨p.1, p.2.1, p.2.2.1, p.2.2.2⟩

def descent : Codec Descent :=
  (pair single (pair single (pair single (pair single size)))).via
    (fun p => (p.learningRate, p.momentum, p.l1Decay, p.l2Decay, p.batchSize))
    fun p => ⟨p.1, p.2.1, p.2.2.1, p.2.2.2.1, p.2.2.2.2⟩

def writeOpcode : Opcode → Bytes
  | .alloc => tag.write 0
  | .dealloc => tag.write 1
  | .view => tag.write 2
  | .copy => tag.write 3
  | .splat value => tag.write 4 ++ single.write value
  | .binary op => tag.write 5 ++ binaryOp.write op
  | .unary op => tag.write 6 ++ unaryOp.write op
  | .reluGrad => tag.write 7
  | .conv p => tag.write 8 ++ convolution.write p
  | .convGrad p => tag.write 9 ++ convolution.write p
  | .maxPool w => tag.write 10 ++ window.write w
  | .maxPoolGrad w => tag.write 11 ++ window.write w
  | .fullyConnected => tag.write 12
  | .fullyConnectedGrad => tag.write 13
  | .softMax => tag.write 14
  | .softMaxGrad => tag.write 15
  | .normalization p => tag.write 16 ++ normalization.write p
  | .normalizationGrad p => tag.write 17 ++ normalization.write p
  | .batchedMatMul => tag.write 18
  | .batchedReduce => tag.write 19 ++ tag.write 0
  | .batched op => tag.write 20 ++ batchOp.write op
  | .transpose perm => tag.write 21 ++ (list size).write perm
  | .sgd p => tag.write 22 ++ descent.write p

def readOpcode (bytes : Bytes) : Option (Opcode × Bytes) := do
  match ← tag.read bytes with
  | (0, bytes) => some (.alloc, bytes)
  | (1, bytes) => some (.dealloc, bytes)
  | (2, bytes) => some (.view, bytes)
  | (3, bytes) => some (.copy, bytes)
  | (4, bytes) => argument single .splat bytes
  | (5, bytes) => argument binaryOp .binary bytes
  | (6, bytes) => argument unaryOp .unary bytes
  | (7, bytes) => some (.reluGrad, bytes)
  | (8, bytes) => argument convolution .conv bytes
  | (9, bytes) => argument convolution .convGrad bytes
  | (10, bytes) => argument window .maxPool bytes
  | (11, bytes) => argument window .maxPoolGrad bytes
  | (12, bytes) => some (.fullyConnected, bytes)
  | (13, bytes) => some (.fullyConnectedGrad, bytes)
  | (14, bytes) => some (.softMax, bytes)
  | (15, bytes) => some (.softMaxGrad, bytes)
  | (16, bytes) => argument normalization .normalization bytes
  | (17, bytes) => argument normalization .normalizationGrad bytes
  | (18, bytes) => some (.batchedMatMul, bytes)
  | (19, bytes) => argument (enumeration (fun _ => 0) [Opcode.batchedReduce]) (·) bytes
  | (20, bytes) => argument batchOp .batched bytes
  | (21, bytes) => argument (list size) .transpose bytes
  | (22, bytes) => argument descent .sgd bytes
  | _ => none

def opcode : Codec Opcode := ⟨writeOpcode, readOpcode⟩

def instruction : Codec Instruction :=
  (pair opcode (list operand)).via (fun i => (i.op, i.operands)) fun p => ⟨p.1, p.2⟩

def liveRange : Codec LiveRange :=
  (pair size size).via (fun r => (r.start, r.stop)) fun p => ⟨p.1, p.2⟩

def slot : Codec Slot :=
  (pair size (pair elementKind (pair size (pair size size)))).via
    (fun s => (s.id, s.kind, s.len, s.offset, s.bytes))
    fun p => ⟨p.1, p.2.1, p.2.2.1, p.2.2.2.1, p.2.2.2.2⟩

def plan : Codec Plan :=
  (pair (idMap liveRange) (pair (idMap size) (pair (idMap id) (pair (list slot) size)))).via
    (fun p => (p.liveRanges, p.assignments, p.viewRoots, p.slots, p.totalBytes))
    fun p => ⟨p.1, p.2.1, p.2.2.1, p.2.2.2.1, p.2.2.2.2⟩

def artifact : Codec Artifact :=
  (pair text (pair (list buffer) (pair (list instruction) plan))).via
    (fun a => (a.name, a.buffers, a.instructions, a.plan))
    fun p => ⟨p.1, p.2.1, p.2.2.1, p.2.2.2⟩

end Codec

namespace Artifact

def toBytes (a : Artifact) : Bytes := Codec.artifact.write a

/-- The artifact at the front of the bytes; what follows it is ignored. -/
def ofBytes? (bytes : Bytes) : Option Artifact := (Codec.artifact.read bytes).map (·.1)

end Artifact

end TensorCompiler
