import TensorCompiler.Graph.Storage

/-!
The typing rules of operators: which operand types an operator takes, and the types of its
results. The same rules hold when a node is created and when a function is verified.
-/

namespace TensorCompiler

/-- Why an operator does not take its operands. -/
inductive TypingFault where
  | operandCount (expected found : Nat)
  | notFloat (operand : Nat)
  | rank (operand rank : Nat)
  | different (left right : Nat)
  | reshape (volume : Nat) (target : Shape)
  | notPermutation (perm : List Nat) (rank : Nat)
  | bias (depth : Nat)
  | filter (expected : Shape)
  | kernelFit (w : Window) (height width : Nat)
  | windowFit (w : Window) (height width : Nat)
  | inputRank
  | weightsRank
  | weightsRows (rows width : Nat)
  | labels (batch : Nat)
  | rightShape
  | contraction (left right : Nat)
  | batchRank
  | slice
  | destination (name : String) (type : TensorType)
  | gradient (expected : TensorType)
deriving DecidableEq, Repr

namespace TypingFault

def fitText (what : String) (w : Window) (height width : Nat) : String :=
  what ++ " " ++ Nat.repr w.kernel ++ " with stride " ++ Nat.repr w.stride ++ " and pad " ++
    Nat.repr w.pad ++ " does not fit " ++ Nat.repr height ++ "x" ++ Nat.repr width

def message : TypingFault → String
  | operandCount expected found =>
    "expected " ++ Nat.repr expected ++ " operands, found " ++ Nat.repr found
  | notFloat i => "operand " ++ Nat.repr i ++ " must be float"
  | rank i r => "operand " ++ Nat.repr i ++ " must have rank " ++ Nat.repr r
  | different i j =>
    "operands " ++ Nat.repr i ++ " and " ++ Nat.repr j ++ " must have the same type"
  | reshape volume target =>
    "cannot reshape " ++ Nat.repr volume ++ " elements into " ++ Text.natList target
  | notPermutation perm r =>
    Text.natList perm ++ " is not a permutation of rank " ++ Nat.repr r
  | bias depth => "bias must be [" ++ Nat.repr depth ++ "]"
  | filter expected => "filter must be " ++ Text.natList expected
  | kernelFit w height width => fitText "kernel" w height width
  | windowFit w height width => fitText "window" w height width
  | inputRank => "input must have rank >= 2"
  | weightsRank => "weights must be rank 2"
  | weightsRows rows width =>
    "weights rows " ++ Nat.repr rows ++ " do not match flattened input width " ++ Nat.repr width
  | labels batch => "selected must be index [" ++ Nat.repr batch ++ ", 1]"
  | rightShape => "rhs must be [B, C] or share the lhs batch as [N, B, C]"
  | contraction left right =>
    "contracting dimensions differ (" ++ Nat.repr left ++ " vs " ++ Nat.repr right ++ ")"
  | batchRank => "batch operand must have rank >= 1"
  | slice => "slice must match the batch type without its leading dimension"
  | destination name type => "destination " ++ name ++ " has type " ++ type.text
  | gradient expected => "output gradient must be " ++ expected.text

end TypingFault

/-- Why a node has no result types. -/
inductive TypingError where
  | mismatch (op : Operator) (operands : List TensorType) (fault : TypingFault)
  | unknownStorage (ref : StorageRef)
deriving DecidableEq, Repr

namespace TypingError

def unknownText (ref : StorageRef) : String := "unknown storage " ++ ref.text

def message : TypingError → String
  | mismatch op operands fault =>
    TensorError.shapeText op.name (fault.message ++ " (operands: " ++
      Text.list (operands.map (·.text)) ++ ")")
  | unknownStorage ref => unknownText ref

end TypingError

namespace Typing

def requireFloat (i : Nat) (t : TensorType) : Except TypingFault Unit :=
  if t.isFloat then .ok () else .error (.notFloat i)

def requireRank (i : Nat) (t : TensorType) (r : Nat) : Except TypingFault Unit :=
  if t.rank = r then .ok () else .error (.rank i r)

def requireSame (x y : TensorType) : Except TypingFault Unit :=
  if x = y then .ok () else .error (.different 0 1)

def isPermutation (perm : List Nat) (rank : Nat) : Bool :=
  perm.length = rank && perm.all (· < rank) && perm.Nodup

/-- The output of a convolution. -/
def conv (p : Convolution) (input filter : TensorType) : Except TypingFault TensorType := do
  requireFloat 0 input
  requireFloat 1 filter
  match input.shape with
  | [n, h, w, c] =>
    let expected := [p.depth, p.kernel, p.kernel, c]
    if filter.shape ≠ expected then throw (.filter expected)
    match p.outputs? h, p.outputs? w with
    | some oh, some ow => return .float [n, oh, ow, p.depth]
    | _, _ => throw (.kernelFit p.toWindow h w)
  | _ => throw (.rank 0 4)

/-- The output of a pooling window. -/
def pool (w : Window) (input : TensorType) : Except TypingFault TensorType := do
  requireFloat 0 input
  match input.shape with
  | [n, height, width, c] =>
    match w.outputs? height, w.outputs? width with
    | some oh, some ow => return .float [n, oh, ow, c]
    | _, _ => throw (.windowFit w height width)
  | _ => throw (.rank 0 4)

/-- The batch and depth of a dense layer, which flattens all axes of its input but the first. -/
def dense (input weights : TensorType) : Except TypingFault (Nat × Nat) := do
  requireFloat 0 input
  requireFloat 1 weights
  match input.shape with
  | n :: d :: ds =>
    let width := Shape.volume (d :: ds)
    match weights.shape with
    | [rows, depth] =>
      if rows = width then return (n, depth) else throw (.weightsRows rows width)
    | _ => throw .weightsRank
  | _ => throw .inputRank

/-- A row-wise operator with one label for every row. -/
def labelled (input labels : TensorType) : Except TypingFault (List TensorType) := do
  requireFloat 0 input
  match input.shape with
  | [batch, _] =>
    if labels = .index [batch, 1] then return [input] else throw (.labels batch)
  | _ => throw (.rank 0 2)

def matmul (left right : TensorType) : Except TypingFault (List TensorType) := do
  requireFloat 0 left
  requireFloat 1 right
  match left.shape with
  | [batch, rows, inner] =>
    let result (b cols : Nat) : Except TypingFault (List TensorType) :=
      if b = inner then .ok [.float [batch, rows, cols]] else .error (.contraction inner b)
    match right.shape with
    | [b, cols] => result b cols
    | [n, b, cols] => if n = batch then result b cols else throw .rightShape
    | _ => throw .rightShape
  | _ => throw (.rank 0 3)

/-- A gradient operand has the type of the output. -/
def requireGradient (grad expected : TensorType) : Except TypingFault Unit :=
  if grad = expected then .ok () else .error (.gradient expected)

/-- The rule of every operator but `save`, whose rule needs the storage. -/
def rule : Operator → List TensorType → Except TypingFault (List TensorType)
  | .binary _, [x, y] | .regression, [x, y] => do
    requireFloat 0 x
    requireSame x y
    return [x]
  | .unary _, [x] => do
    requireFloat 0 x
    return [x]
  | .splat _ type, [] => .ok [type]
  | .reshape target, [x] =>
    if target.volume = x.volume then .ok [⟨x.kind, target⟩]
    else .error (.reshape x.volume target)
  | .transpose perm, [x] =>
    if isPermutation perm x.rank then .ok [⟨x.kind, perm.map fun axis => x.shape.getD axis 0⟩]
    else .error (.notPermutation perm x.rank)
  | .conv p, [x, f, b] => do
    let out ← conv p x f
    requireFloat 2 b
    if b.shape ≠ [p.depth] then throw (.bias p.depth)
    return [out]
  | .maxPool w, [x] => do return [← pool w x]
  | .fullyConnected, [x, w, b] => do
    let (n, depth) ← dense x w
    if b.shape ≠ [depth] then throw (.bias depth)
    return [.float [n, depth]]
  | .softMax, [x, labels] | .softMaxGrad, [x, labels] => labelled x labels
  | .normalization _, [x] => do
    requireFloat 0 x
    requireRank 0 x 4
    return [x]
  | .batchedMatMul, [x, y] => matmul x y
  | .batchedReduce, [x] => do
    requireFloat 0 x
    match x.shape with
    | [] => throw .batchRank
    | _ :: ds => return [⟨x.kind, ds⟩]
  | .batched _, [x, s] => do
    requireFloat 0 x
    match x.shape with
    | [] => throw .slice
    | _ :: ds => if s = ⟨x.kind, ds⟩ then return [x] else throw .slice
  | .sgd _, [x, y] => do
    requireFloat 0 x
    requireSame x y
    return []
  | .reluGrad, [x, y] => do
    requireFloat 0 x
    requireSame x y
    return [x]
  | .convGrad p, [x, f, g] => do
    requireGradient g (← conv p x f)
    return [x, f, .float [p.depth]]
  | .maxPoolGrad w, [x, g] => do
    requireGradient g (← pool w x)
    return [x]
  | .fullyConnectedGrad, [x, w, g] => do
    let (n, depth) ← dense x w
    requireGradient g (.float [n, depth])
    return [x, w, .float [depth]]
  | .normalizationGrad _, [x, g] => do
    requireFloat 0 x
    requireRank 0 x 4
    requireSame x g
    return [x]
  | op, operands => .error (.operandCount op.arity operands.length)

/-- A saved value has the type of its destination. -/
def saveRule (s : Storage) (destination : StorageRef) (operands : List TensorType) :
    Except TypingError (List TensorType) :=
  let op := Operator.save destination
  match operands with
  | [x] =>
    match s.type? destination, s.name? destination with
    | some type, some name =>
      if type = x then .ok [] else .error (.mismatch op operands (.destination name type))
    | _, _ => .error (.unknownStorage destination)
  | _ => .error (.mismatch op operands (.operandCount 1 operands.length))

/-- The types of an operator's results on operands of the given types. -/
def resultTypes (s : Storage) (op : Operator) (operands : List TensorType) :
    Except TypingError (List TensorType) :=
  match op with
  | .save destination => saveRule s destination operands
  | _ => (rule op operands).mapError (.mismatch op operands)

end Typing

end TensorCompiler
