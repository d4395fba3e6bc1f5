import Dnet.Lib.Loop

/-!
# Reading byte strings

A cursor over a byte string is the list of the bytes that are left. Unsigned numbers are
little endian; a reader fails with the error it is given when the bytes run out.
-/

namespace Dnet.Lib

/-- A reader takes bytes from the front and returns those that are left. -/
abbrev Reader (ε α : Type) := StateT (List UInt8) (Except ε) α

/-- The value of a little-endian byte string. -/
def ofLe : List UInt8 → Nat
  | [] => 0
  | b :: bs => b.toNat + 256 * ofLe bs

/-- The `w` bytes of `n`, little endian. -/
def leBytes : Nat → Nat → List UInt8
  | 0, _ => []
  | w + 1, n => UInt8.ofNat n :: leBytes w (n / 256)

section

variable {ε : Type}

/-- Take `w` bytes. -/
def readBytes (e : ε) (w : Nat) : Reader ε (List UInt8) := fun bs =>
  if w ≤ bs.length then .ok (bs.take w, bs.drop w) else .error e

/-- Take an unsigned number of `w` bytes. -/
def readLe (e : ε) (w : Nat) : Reader ε Nat := do
  return ofLe (← readBytes e w)

/-- Take `n` items. -/
def readMany {α : Type} (item : Reader ε α) : Nat → Reader ε (List α)
  | 0 => pure []
  | n + 1 => do
    let a ← item
    return a :: (← readMany item n)

end

@[simp] theorem length_leBytes : ∀ (w n : Nat), (leBytes w n).length = w
  | 0, _ => rfl
  | w + 1, n => congrArg (· + 1) (length_leBytes w (n / 256))

theorem ofLe_leBytes : ∀ {w n : Nat}, n < 256 ^ w → ofLe (leBytes w n) = n
  | 0, n, h => by
    rw [Nat.pow_zero, Nat.lt_one_iff] at h
    exact h.symm
  | w + 1, n, h => by
    have hdiv : n / 256 < 256 ^ w := by
      rw [Nat.div_lt_iff_lt_mul (by decide), ← Nat.pow_succ]
      exact h
    show (UInt8.ofNat n).toNat + 256 * ofLe (leBytes w (n / 256)) = n
    rw [ofLe_leBytes hdiv, UInt8.toNat_ofNat']
    exact Nat.mod_add_div n 256

theorem leBytes_ofLe : ∀ bs : List UInt8, leBytes bs.length (ofLe bs) = bs
  | [] => rfl
  | b :: bs => by
    have hlow : UInt8.ofNat (b.toNat + 256 * ofLe bs) = b := by
      rw [← UInt8.toNat_inj, UInt8.toNat_ofNat']
      have := b.toNat_lt
      omega
    have hhigh : (b.toNat + 256 * ofLe bs) / 256 = ofLe bs := by
      have := b.toNat_lt
      omega
    show UInt8.ofNat (b.toNat + 256 * ofLe bs) ::
      leBytes bs.length ((b.toNat + 256 * ofLe bs) / 256) = b :: bs
    rw [hlow, hhigh, leBytes_ofLe bs]

theorem ofLe_lt : ∀ bs : List UInt8, ofLe bs < 256 ^ bs.length
  | [] => Nat.one_pos
  | b :: bs => by
    have hb := b.toNat_lt
    have ih := ofLe_lt bs
    show b.toNat + 256 * ofLe bs < 256 ^ (bs.length + 1)
    rw [Nat.pow_succ]
    omega

end Dnet.Lib
