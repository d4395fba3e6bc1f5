import Mathlib.Algebra.Group.Int.Defs
import Mathlib.Algebra.Group.Nat.Defs
import Mathlib.Data.List.Lex
import Mathlib.Order.Lattice

/-!
# Ports, paths, classes and errors

`PortId` (port.rs), `LOPath` (lopath.rs), the class markers (class.rs) and `DnxError` (error.rs).

A `PortId` of the source packs its four fields into a `u32`. Slot indices stay
below `2^28` (`MAX_SLOTS`), so the packing loses nothing and the fields are kept
apart here. An `LOPath` of the source packs its bits into four `u128` limbs, oldest
limb first; the comparison of limbs is the lexicographic one on the bits.
-/

namespace Dnet

/-! ## Errors -/

inductive LinError where
  | unused (name : String)
  | multiUse (name : String) (count : Nat)
  | mutualRecursion (names : List String)
  | tooManyFreeVars
  deriving DecidableEq, Repr

inductive DnxError where
  | linError (e : LinError)
  | lOPathDepthExceeded
  | stepLimitExceeded (n : Nat)
  | arenaCapacityExceeded
  | deltaOverflow
  | stalePair
  | abaViolation
  | primError (msg : String)
  | readbackIncomplete
  deriving DecidableEq, Repr

/-- How a call with a `debug_assert!` in it can fail: with an error, or on the assertion. -/
inductive Abort where
  | err (e : DnxError)
  | assertion
  deriving DecidableEq, Repr

instance : MonadLift (Except DnxError) (Except Abort) := ⟨Except.mapError .err⟩

section

variable {α : Type} {x : Except DnxError α}

@[simp] theorem lift_eq_ok {a : α} : (liftM x : Except Abort α) = .ok a ↔ x = .ok a := by
  cases x with
  | error e => exact ⟨nofun, nofun⟩
  | ok b => exact ⟨fun h => by cases h; rfl, fun h => by cases h; rfl⟩

@[simp] theorem lift_ne_assertion : (liftM x : Except Abort α) ≠ .error .assertion := by
  cases x with
  | error e | ok b => nofun

@[simp] theorem lift_eq_err {e : DnxError} :
    (liftM x : Except Abort α) = .error (.err e) ↔ x = .error e := by
  cases x with
  | error e' => exact ⟨fun h => by cases h; rfl, fun h => by cases h; rfl⟩
  | ok b => exact ⟨nofun, nofun⟩

end

/-! ## Ports -/

inductive PortKind where
  | principal
  | aux0
  | aux1
  deriving DecidableEq, Repr

/-- A port of a slot. `genLow` is the parity of the slot's generation at the time
the port was made; `isEraser` is the sentinel bit of the virtual eraser. -/
structure PortId where
  slotIdx : Nat
  portKind : PortKind
  isEraser : Bool
  genLow : Bool
  deriving DecidableEq, Repr

namespace PortId

def null : PortId := ⟨0, .principal, false, false⟩

def era : PortId := ⟨0, .principal, true, false⟩

def new (slotIdx : Nat) (kind : PortKind) (genLow : Bool) : PortId :=
  ⟨slotIdx, kind, false, genLow⟩

def isNull (p : PortId) : Bool := p = null

/-- A port that is stored in a slot: neither the eraser nor null. -/
def isReal (p : PortId) : Bool := !(p.isEraser || p.isNull)

@[simp] theorem isEraser_era : era.isEraser = true := rfl

@[simp] theorem isReal_null : null.isReal = false := rfl

@[simp] theorem isReal_era : era.isReal = false := rfl

theorem isReal_iff {p : PortId} : p.isReal = true ↔ p.isEraser = false ∧ p ≠ null := by
  simp [isReal, isNull]

theorem isReal_of_pos {i : Nat} {k : PortKind} {g : Bool} (h : 0 < i) :
    (new i k g).isReal = true := by
  refine isReal_iff.mpr ⟨rfl, fun h' => ?_⟩
  exact absurd (congrArg PortId.slotIdx h') (Nat.pos_iff_ne_zero.mp h)

end PortId

/-- A port that is known to be a principal port. -/
def PrincipalPortId := { p : PortId // p.portKind = .principal }
  deriving DecidableEq, Repr

def PrincipalPortId.new (p : PortId) : Option PrincipalPortId :=
  if h : p.portKind = .principal then some ⟨p, h⟩ else none

/-! ## Leftmost-outermost paths -/

/-- A path from the root of the term, outermost bit first; `false` is left. -/
structure LOPath where
  bits : List Bool
  deriving DecidableEq, Repr

namespace LOPath

/-- Four limbs of 128 bits. -/
def maxDepth : Nat := 512

def root : LOPath := ⟨[]⟩

def depth (p : LOPath) : Nat := p.bits.length

def extendBit (p : LOPath) (bit : Bool) : Except DnxError LOPath :=
  if p.depth < maxDepth then .ok ⟨p.bits ++ [bit]⟩ else .error .lOPathDepthExceeded

def extendLeft (p : LOPath) : Except DnxError LOPath := p.extendBit false

def extendRight (p : LOPath) : Except DnxError LOPath := p.extendBit true

instance : LinearOrder LOPath :=
  LinearOrder.lift' LOPath.bits fun ⟨_⟩ ⟨_⟩ h => congrArg LOPath.mk h

theorem extendBit_ok {p q : LOPath} {b : Bool} (h : p.extendBit b = .ok q) :
    q.bits = p.bits ++ [b] := by
  unfold extendBit at h
  split at h
  · cases h; rfl
  · cases h

end LOPath

/-! ## Net classes -/

/-- The four classes: linear, affine (erasers), relevant (replicators), full. -/
inductive NetClass where
  | ΔL
  | ΔA
  | ΔI
  | ΔK
  deriving DecidableEq, Repr

namespace NetClass

/-- `CRules::HAS_REP`. -/
def hasRep : NetClass → Bool
  | ΔL | ΔA => false
  | ΔI | ΔK => true

/-- `CRules::HAS_ERA`. -/
def hasEra : NetClass → Bool
  | ΔL | ΔI => false
  | ΔA | ΔK => true

end NetClass

end Dnet
