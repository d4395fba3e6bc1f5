import Dnet.Core.Net
import Dnet.Lib.Bytes

/-!
# The blob codec

`from_blob` (blob.rs): a byte string is decoded into records, every record gets an agent,
the edges are wired with `connect`, and `certify_canonical` admits the net. The records
name each other by their position; the edges of a record are those of a fixed set of ports
for each kind.
-/

namespace Dnet

open Lib

/-! ## Records -/

/-- `CANON_HASH_V1`. -/
def canonHashV1Tag : Nat := 0x01
def kindFanAbs : Nat := 0x01
def kindFanApp : Nat := 0x02
def kindRepIn : Nat := 0x03
def kindFreeVar : Nat := 0x04
def kindEraser : Nat := 0xFF
def eraserIdx : Nat := 2 ^ 32 - 1
def eraserSel : Nat := 0xFF
def freeVarIdMax : Nat := 0x3FFF

/-- The record and the port at the other end of an edge; `none` is the eraser. -/
abbrev Edge := Option (Nat × PortKind)

inductive Record where
  | eraser
  | freeVar (varId : Nat)
  | fanAbs (body var : Edge)
  | fanApp (func arg : Edge)
  | repIn (level : Nat) (delta0 delta1 : Int) (left right : Edge)
  deriving DecidableEq, Repr

/-- The edges of a record with the ports they start from, in the order of the bytes. -/
def Record.edges : Record → List (PortKind × Edge)
  | .eraser | .freeVar _ => []
  | .fanAbs body var => [(.aux0, body), (.aux1, var)]
  | .fanApp func arg => [(.principal, func), (.aux1, arg)]
  | .repIn _ _ _ left right => [(.aux0, left), (.aux1, right)]

/-! ## Decoding -/

def readU8 : Reader DnxError Nat := readLe .readbackIncomplete 1

def readU16 : Reader DnxError Nat := readLe .readbackIncomplete 2

def readU32 : Reader DnxError Nat := readLe .readbackIncomplete 4

/-- Two's complement on 16 bits. -/
def readI16 : Reader DnxError Int := do
  return (BitVec.ofNat 16 (← readU16)).toInt

def portKindOf (sel : Nat) : Except DnxError PortKind :=
  match sel with
  | 0 => .ok .principal
  | 1 => .ok .aux0
  | 2 => .ok .aux1
  | _ => .error .readbackIncomplete

def readEdge : Reader DnxError Edge := do
  let idx ← readU32
  let sel ← readU8
  if idx = eraserIdx ∧ sel = eraserSel then return none
  else return some (idx, ← portKindOf sel)

def readRecord : Reader DnxError Record := do
  let kind ← readU8
  if kind = kindEraser then return .eraser
  else if kind = kindFreeVar then
    let varId ← readU32
    if varId > freeVarIdMax then throw .readbackIncomplete
    else return .freeVar varId
  else if kind = kindFanAbs then return .fanAbs (← readEdge) (← readEdge)
  else if kind = kindFanApp then return .fanApp (← readEdge) (← readEdge)
  else if kind = kindRepIn then
    return .repIn (← readU16) (← readI16) (← readI16) (← readEdge) (← readEdge)
  else throw .readbackIncomplete

/-- Version, count and records, with nothing left over and at least one record. -/
def decode (bytes : List UInt8) : Except DnxError (List Record) := do
  let (tag, bytes) ← readU8 bytes
  if tag ≠ canonHashV1Tag then throw .readbackIncomplete
  else
    let (n, bytes) ← readU32 bytes
    let (records, bytes) ← readMany readRecord n bytes
    if bytes ≠ [] then throw .readbackIncomplete
    else if records.isEmpty then throw .readbackIncomplete
    else return records

/-! ## Rebuilding the net -/

/-- `alloc_record`: the principal port of the new agent. -/
def allocRecord (debug : Bool) (n : Net) : Record → Except Abort (PortId × Net)
  | .eraser => .ok (.era, n)
  | .freeVar varId => (n.allocFree varId).mapError .err
  | .fanAbs _ _ => (n.allocAbs.mapError .err).map fun (ports, n) => (ports.principal, n)
  | .fanApp _ _ => (n.allocApp.mapError .err).map fun (ports, n) => (ports.principal, n)
  | .repIn level delta0 delta1 _ _ =>
    (n.allocRepIn debug level delta0 delta1).map fun (ports, n) => (ports.principal, n)

def allocRecords (debug : Bool) : List Record → Net → Except Abort (List PortId × Net)
  | [], n => .ok ([], n)
  | rec :: records, n => do
    let (slot, n) ← allocRecord debug n rec
    let (slots, n) ← allocRecords debug records n
    return (slot :: slots, n)

def resolve (slots : List PortId) : Edge → Except DnxError PortId
  | none => .ok .era
  | some (idx, kind) =>
    match slots[idx]? with
    | none => .error .readbackIncomplete
    | some base => .ok (.new base.slotIdx kind base.genLow)

/-- Wire the edges of one record. -/
def wireRecord (slots : List PortId) (base : PortId) : List (PortKind × Edge) → Net →
    Except DnxError Net
  | [], n => .ok n
  | (kind, edge) :: edges, n => do
    let src := PortId.new base.slotIdx kind base.genLow
    let dst ← resolve slots edge
    wireRecord slots base edges (n.connect src dst .root)

def wireRecords (slots : List PortId) : List (PortId × Record) → Net → Except DnxError Net
  | [], n => .ok n
  | (base, rec) :: rest, n => do
    let n ← wireRecord slots base rec.edges n
    wireRecords slots rest n

/-- Passes 1 and 2 and the certificate. -/
def rebuild (debug : Bool) (records : List Record) : Except Abort (Net × PortId) := do
  let n := Net.new (max (min (records.length + 1) (2 ^ 32 - 1)) 2)
  let (slots, n) ← allocRecords debug records n
  let n ← (wireRecords slots (slots.zip records) n).mapError .err
  n.certifyCanonical.mapError .err
  return (n, slots.headD .null)

def deserialize (debug : Bool) (bytes : List UInt8) : Except Abort (Net × PortId) := do
  let records ← (decode bytes).mapError .err
  rebuild debug records

def fromBlob (debug : Bool) (bytes : List UInt8) : Except Abort (Net × PortId) :=
  deserialize debug bytes

end Dnet
