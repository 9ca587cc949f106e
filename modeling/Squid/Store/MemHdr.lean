import Squid.Library.CRuntime
import Squid.Base.Splay
import Mathlib.Logic.Function.Basic

/-!
# `mem_hdr`

The in-memory part of a cached object, as in `src/stmem.cc` and `src/mem_node.cc`: pages with the
bytes of ranges of the object, in a splay tree in which ranges that overlap count as equal.  The
tree holds addresses, and the pages themselves are in a heap.  Messages for the log are taken to be
written, with the calls of `endOffset` that they make.
-/

namespace Squid
namespace Mem

open CRuntime

/-- How a call may end the program. -/
inductive Fault
  | assertion
  | fatal
  deriving DecidableEq

def SM_PAGE_SIZE : ℕ := 4096

/-- `mem_node`: its `nodeBuffer` and the bytes that have been written to its page. -/
structure MemNode where
  offset : ℤ
  length : ℕ := 0
  data : Bytes := []

/-- `start`; no offset is negative where this is called. -/
def MemNode.start (node : MemNode) : ℤ := node.offset

/-- `end`. -/
def MemNode.dataEnd (node : MemNode) : ℤ := int64 (node.offset + node.length)

def MemNode.space (node : MemNode) : ℕ := SM_PAGE_SIZE - node.length

def MemNode.canAccept (node : MemNode) (location : ℤ) : Bool :=
  location = node.dataEnd && 0 < node.space

def NodeCompare (left right : MemNode) : ℤ :=
  if max left.start right.start < min left.dataEnd right.dataEnd then 0
  else if left.start < right.start then -1
  else 1

/-- `mem_hdr`, with the heap and its next address. -/
structure MemHdr where
  inmem_hi : ℤ := 0
  nodes : Splay ℕ := {}
  heap : ℕ → MemNode := fun _ => { offset := 0 }
  fresh : ℕ := 0

namespace MemHdr

/-- `nodes.find`, for a node outside the heap. -/
def find (hdr : MemHdr) (target : MemNode) : Option ℕ × MemHdr :=
  match hdr.nodes.find fun p => NodeCompare target (hdr.heap p) with
  | (result, nodes) => (result, { hdr with nodes })

def endOffset (hdr : MemHdr) : Except Fault ℤ :=
  let result := match hdr.nodes.finish with
    | some theEnd => (hdr.heap theEnd).dataEnd
    | none => 0
  if result = hdr.inmem_hi then .ok result else .error .assertion

/-- `writeAvailable`: how much has been written. -/
def writeAvailable (hdr : MemHdr) (aNode : ℕ) (location : ℤ) (source : Bytes) :
    Except Fault (ℕ × MemHdr) :=
  let node := hdr.heap aNode
  if location ≠ int64 (node.offset + node.length) then
    .error .assertion
  else if ¬ node.canAccept location then
    .error .assertion
  else if int64 (location - node.offset) ≠ node.length then
    .error .assertion
  else
    let copyLen := min source.length node.space
    let hdr := { hdr with
      inmem_hi := if hdr.inmem_hi ≤ location then int64 (location + copyLen) else hdr.inmem_hi
      heap := Function.update hdr.heap aNode { node with
        length := node.length + copyLen
        data := node.data ++ source.take copyLen } }
    hdr.endOffset.map fun _ => (copyLen, hdr)

/-- `appendNode` of a new node. -/
def appendNode (hdr : MemHdr) (offset : ℤ) : Except Fault (ℕ × MemHdr) :=
  let aNode := hdr.fresh
  let heap := Function.update hdr.heap aNode { offset }
  match hdr.nodes.insert aNode fun p => NodeCompare (heap aNode) (heap p) with
  | some nodes => .ok (aNode, { hdr with nodes, heap, fresh := hdr.fresh + 1 })
  | none => .error .assertion

def unionNotEmpty (hdr : MemHdr) (offset : ℤ) (length : ℕ) : Except Fault (Bool × MemHdr) :=
  if ¬ 0 ≤ offset then
    .error .assertion
  else
    match hdr.find { offset, length } with
    | (result, hdr) => .ok (result.isSome, hdr)

def nodeToRecieve (hdr : MemHdr) (offset : ℤ) : Except Fault (ℕ × MemHdr) :=
  if hdr.nodes.elements = 0 then
    (hdr.appendNode offset).bind fun (_, hdr) =>
      match hdr.nodes.start with
      | some theStart => .ok (theStart, hdr)
      | none => .error .assertion
  else
    let (candidate, hdr) := if 0 < offset then hdr.find { offset := offset - 1, length := 1 }
      else (none, hdr)
    match candidate with
    | some candidate =>
        if (hdr.heap candidate).canAccept offset then .ok (candidate, hdr)
        else hdr.appendNode offset
    | none => hdr.appendNode offset

/-- The loop of `write`; every round takes at least one byte. -/
def writeLoop : ℕ → MemHdr → ℤ → Bytes → Except Fault MemHdr
  | 0, hdr, _, _ => .ok hdr
  | fuel + 1, hdr, currentOffset, currentSource =>
      if currentSource = [] then
        .ok hdr
      else
        (hdr.nodeToRecieve currentOffset).bind fun (target, hdr) =>
          (hdr.writeAvailable target currentOffset currentSource).bind fun (wrote, hdr) =>
            if wrote = 0 then
              .error .assertion
            else
              writeLoop fuel hdr (int64 (currentOffset + wrote)) (currentSource.drop wrote)

def write (hdr : MemHdr) (offset : ℤ) (data : Bytes) : Except Fault MemHdr :=
  hdr.endOffset.bind fun _ =>
    (hdr.unionNotEmpty offset data.length).bind fun (overlaps, hdr) =>
      if overlaps then
        .error .fatal
      else if ¬ 0 ≤ offset then
        .error .assertion
      else
        writeLoop data.length hdr offset data

def getBlockContainingLocation (hdr : MemHdr) (location : ℤ) : Option ℕ × MemHdr :=
  hdr.find { offset := location, length := 1 }

def copyAvailable (node : MemNode) (location : ℤ) (amount : ℕ) : Except Fault Bytes :=
  if location < node.offset then
    .ok []
  else if ¬ location < node.dataEnd then
    .error .assertion
  else
    let copyOffset := (location - node.offset).toNat
    .ok ((node.data.drop copyOffset).take (min amount (node.length - copyOffset)))

/-- The loop of `copy`; every round gives at least one byte. -/
def copyLoop : ℕ → MemHdr → Option ℕ → ℤ → ℕ → Except Fault (Bytes × MemHdr)
  | 0, hdr, _, _, _ => .ok ([], hdr)
  | fuel + 1, hdr, p, location, bytes_to_go =>
      match p with
      | none => .ok ([], hdr)
      | some p =>
          if bytes_to_go = 0 then
            .ok ([], hdr)
          else
            (copyAvailable (hdr.heap p) location bytes_to_go).bind fun copied =>
              if copied = [] then
                .ok ([], hdr)
              else
                let location := int64 (location + copied.length)
                match hdr.getBlockContainingLocation location with
                | (p, hdr) =>
                    (copyLoop fuel hdr p location (bytes_to_go - copied.length)).map
                      fun (rest, hdr) => (copied ++ rest, hdr)

/-- `copy`: the bytes that are put in the buffer. -/
def copy (hdr : MemHdr) (offset : ℤ) (length : ℕ) : Except Fault (Bytes × MemHdr) :=
  if ¬ offset < int64 (offset + length) then
    .error .assertion
  else if hdr.nodes.elements = 0 then
    .error .assertion
  else if ¬ 0 < length then
    .error .assertion
  else if ¬ 0 ≤ offset then
    .error .assertion
  else
    match hdr.getBlockContainingLocation offset with
    | (none, _) => .error .fatal
    | (some p, hdr) => copyLoop (length + 1) hdr (some p) offset length

end MemHdr

end Mem
end Squid
