import TensorCompiler.Artifact.Instruction
import TensorCompiler.IdMap

/-!
The plan of the activation arena: when each activation is alive, and which slot holds it.
Activations of one element kind and size may share a slot when they are never alive together.
-/

namespace TensorCompiler

/-- The positions of an activation's allocation and deallocation, both included. -/
structure LiveRange where
  start : Nat
  stop : Nat
deriving DecidableEq, Repr

namespace LiveRange

def overlaps (a b : LiveRange) : Bool := a.start ≤ b.stop && b.start ≤ a.stop

/-- The position is strictly between the allocation and the deallocation. -/
def covers (r : LiveRange) (position : Nat) : Bool := r.start < position && position < r.stop

end LiveRange

/-- A region of the arena, for elements of one kind. -/
structure Slot where
  id : Nat
  kind : ElementKind
  len : Nat
  offset : Nat
  bytes : Nat
deriving DecidableEq, Repr

/-- Where the slot ends, in words. -/
def Slot.stop (s : Slot) : Nat := Word.wrap (s.offset + s.bytes)

structure Plan where
  liveRanges : IdMap LiveRange
  /-- The slot of every activation, and of every view of one. -/
  assignments : IdMap Nat
  /-- For every view the buffer whose elements it shows. -/
  viewRoots : IdMap Nat
  slots : List Slot
  totalBytes : Nat
deriving DecidableEq

/-- Why a plan cannot be made, or does not hold. -/
inductive PlanFault where
  | duplicateAlloc (buffer : Nat)
  | unmatchedDealloc (buffer : Nat)
  | missingDealloc (buffer : Nat)
  | notAnActivation (buffer : Nat)
  | unknownBuffer (buffer : Nat)
  | unassigned
  | overlap (left right : Nat)
deriving DecidableEq, Repr

namespace PlanFault

def bufferText (buffer : Nat) : String := "BufferId(" ++ Nat.repr buffer ++ ")"

def message : PlanFault → String
  | duplicateAlloc b => "activation " ++ bufferText b ++ " is allocated more than once"
  | unmatchedDealloc b =>
    "activation " ++ bufferText b ++ " is deallocated without a matching alloc"
  | missingDealloc b => "activation " ++ bufferText b ++ " is never deallocated"
  | notAnActivation b => "alloc/dealloc names non-activation buffer " ++ bufferText b
  | unknownBuffer b => "buffer " ++ bufferText b ++ " is not declared"
  | unassigned => "activation without a slot"
  | overlap l r =>
    "activations " ++ bufferText l ++ " and " ++ bufferText r ++
      " are alive together in overlapping bytes"

end PlanFault

namespace Plan

/-- The buffer whose elements a buffer shows: the root of a view, otherwise itself. -/
def root (p : Plan) (buffer : Nat) : Nat := (p.viewRoots.get? buffer).getD buffer

def slotOf (p : Plan) (buffer : Nat) : Option Slot :=
  (p.assignments.get? buffer).bind (p.slots[·]?)

/-- When a buffer is alive: for a view, when its root is. -/
def rangeOf (p : Plan) (buffer : Nat) : Option LiveRange := p.liveRanges.get? (p.root buffer)

/-- An activation with its live range and slot. -/
structure Placement where
  buffer : Nat
  range : LiveRange
  slot : Slot
deriving DecidableEq, Repr

namespace Placement

/-- Two activations that are alive together in common bytes. -/
def collides (a b : Placement) : Bool :=
  a.slot.offset < b.slot.stop && b.slot.offset < a.slot.stop && a.range.overlaps b.range

end Placement

def placements (p : Plan) : List Placement :=
  p.liveRanges.entries.filterMap fun (b, range) =>
    (p.slotOf b).map fun slot => ⟨b, range, slot⟩

/-- The first two placements, in order of their buffers, that collide. -/
def firstCollision : List Placement → Option (Nat × Nat)
  | [] => none
  | a :: rest =>
    match rest.find? a.collides with
    | some b => some (a.buffer, b.buffer)
    | none => firstCollision rest

/-- Every activation has a slot, and no two that are alive together share bytes. -/
def verify (p : Plan) : Except PlanFault Unit :=
  if p.placements.length ≠ p.liveRanges.size then .error .unassigned
  else
    match firstCollision p.placements with
    | some (a, b) => .error (.overlap a b)
    | none => .ok ()

/-- The activations that are open, and the live ranges of those already closed. -/
structure Lifetimes where
  opened : IdMap Nat
  closed : IdMap LiveRange

/-- Takes one instruction into account; only markers count, and of a marker its first operand. -/
def Lifetimes.step (buffers : List Buffer) (l : Lifetimes) (position : Nat) (i : Instruction) :
    Except PlanFault Lifetimes :=
  match i.op, i.operands.head? with
  | .alloc, some operand =>
    let b := operand.buffer
    match buffers[b]? with
    | none => .error (.unknownBuffer b)
    | some declared =>
      if !declared.isActivation then .error (.notAnActivation b)
      else if l.opened.contains b || l.closed.contains b then .error (.duplicateAlloc b)
      else .ok { l with opened := l.opened.insert b position }
  | .dealloc, some operand =>
    let b := operand.buffer
    match l.opened.get? b with
    | none => .error (.unmatchedDealloc b)
    | some start =>
      .ok { opened := l.opened.erase b, closed := l.closed.insert b ⟨start, position⟩ }
  | _, _ => .ok l

/-- The live ranges that the markers of a stream give. -/
def liveRangesOf (buffers : List Buffer) (instructions : List Instruction) :
    Except PlanFault (IdMap LiveRange) := do
  let l ← instructions.zipIdx.foldlM (fun l (i, position) => l.step buffers position i)
    (⟨.empty, .empty⟩ : Lifetimes)
  match l.opened.keys.head? with
  | some b => .error (.missingDealloc b)
  | none => .ok l.closed

/-- The roots of all views. A view is declared after its source, so the source's root is known. -/
def viewRootsOf (buffers : List Buffer) : Except PlanFault (IdMap Nat) :=
  buffers.foldlM (fun roots b =>
    match b.kind with
    | .view source =>
      let root := (roots.get? source).getD source
      if root < buffers.length then .ok (roots.insert b.id root) else .error (.unknownBuffer root)
    | _ => .ok roots) .empty

/-- The element kind and count that a slot is for. -/
abbrev Group := ElementKind × Nat

def Group.le (a b : Group) : Bool :=
  match a.1, b.1 with
  | .float, .index => true
  | .index, .float => false
  | _, _ => a.2 ≤ b.2

def groupOf (buffers : List Buffer) (b : Nat) : Option Group :=
  (buffers[b]?).map fun d => (d.type.kind, d.type.volume)

/-- The groups of the live activations, floats first and smaller sizes first. -/
def groups (buffers : List Buffer) (ranges : IdMap LiveRange) : List Group :=
  (ranges.keys.filterMap (groupOf buffers)).eraseDups.mergeSort Group.le

/-- The activations of a group in the order they come alive. -/
def members (buffers : List Buffer) (ranges : IdMap LiveRange) (g : Group) :
    List (Nat × LiveRange) :=
  (ranges.entries.filter fun (b, _) => groupOf buffers b = some g).mergeSort fun x y =>
    x.2.start < y.2.start || (x.2.start == y.2.start && x.1 ≤ y.1)

/-- Gives every activation the first slot that is free before it comes alive, or a new one. `ends`
holds, for each slot, the end of its last activation; the result lists the slots by position. -/
def fill (reuse : Bool) : List Nat → List (Nat × LiveRange) → List (Nat × Nat) × List Nat
  | ends, [] => ([], ends)
  | ends, (b, range) :: rest =>
    match if reuse then ends.findIdx? (· < range.start) else none with
    | some i =>
      let (assigned, ends) := fill reuse (ends.set i range.stop) rest
      ((b, i) :: assigned, ends)
    | none =>
      let (assigned, ends') := fill reuse (ends ++ [range.stop]) rest
      ((b, ends.length) :: assigned, ends')

/-- `count` slots of one group, after the slots already there. -/
def appendSlots (g : Group) (count : Nat) (slots : List Slot) : List Slot :=
  (List.range count).foldl (fun slots _ =>
    slots ++ [{
      id := slots.length
      kind := g.1
      len := g.2
      offset := (slots.getLast?.map Slot.stop).getD 0
      bytes := Word.wrap (g.2 * g.1.bytes) }]) slots

/-- The slots and assignments of all activations, group by group. -/
def layout (reuse : Bool) (buffers : List Buffer) (ranges : IdMap LiveRange) :
    List Slot × IdMap Nat :=
  (groups buffers ranges).foldl (fun (slots, assigned) g =>
    let (placed, ends) := fill reuse [] (members buffers ranges g)
    (appendSlots g ends.length slots,
      placed.foldl (fun m (b, i) => m.insert b (slots.length + i)) assigned)) ([], .empty)

/-- The plan of a stream; with `reuse`, activations that are never alive together share slots. -/
def make (reuse : Bool) (buffers : List Buffer) (instructions : List Instruction) :
    Except PlanFault Plan := do
  let liveRanges ← liveRangesOf buffers instructions
  let viewRoots ← viewRootsOf buffers
  let (slots, assigned) := layout reuse buffers liveRanges
  return {
    liveRanges
    viewRoots
    slots
    totalBytes := (slots.getLast?.map Slot.stop).getD 0
    assignments := viewRoots.entries.foldl (fun m (view, root) =>
      match m.get? root with
      | some slot => m.insert view slot
      | none => m) assigned }

end Plan

end TensorCompiler
