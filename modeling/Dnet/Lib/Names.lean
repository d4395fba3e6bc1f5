import Mathlib.Data.List.Basic

/-!
# Numbered names

Names that end in a decimal number. The number can be read off a name whose stem ends in a
character that is no digit (`Stem`), so different numbers or stems give different names.
-/

namespace Dnet.Lib

open List

theorem toString_injective {m n : Nat} (h : toString m = toString n) : m = n := by
  have hdigits : Nat.toDigits 10 m = Nat.toDigits 10 n := by
    simpa [Nat.toList_repr] using congrArg String.toList h
  rw [← Nat.ofDigitChars_ten_toDigits (n := m), hdigits, Nat.ofDigitChars_ten_toDigits]

theorem isDigit_of_mem_toString {n : Nat} {c : Char} (h : c ∈ (toString n).toList) :
    c.isDigit = true :=
  Nat.isDigit_of_mem_toDigits (by omega) (by omega) (Nat.toList_repr (n := n) ▸ h)

/-- The digits at the end of a name, from the last one back. -/
def lastDigits (l : List Char) : List Char := l.reverse.takeWhile Char.isDigit

theorem lastDigits_append {l d : List Char} {c : Char} (hc : c.isDigit = false)
    (hd : ∀ x ∈ d, x.isDigit = true) : lastDigits (l ++ [c] ++ d) = d.reverse := by
  have hrev : ∀ x ∈ d.reverse, x.isDigit = true := fun x hx => hd x (mem_reverse.mp hx)
  rw [lastDigits, reverse_append, reverse_append, takeWhile_append_of_pos hrev,
    reverse_singleton, singleton_append, takeWhile_cons, hc]
  simp

/-- A part of a name that a number can follow. -/
def Stem (s : String) : Prop := ∃ l c, s.toList = l ++ [c] ∧ c.isDigit = false

theorem Stem.append {s : String} (h : Stem s) (base : String) : Stem (base ++ s) := by
  obtain ⟨l, c, hs, hc⟩ := h
  exact ⟨base.toList ++ l, c, by rw [String.toList_append, hs, append_assoc], hc⟩

theorem Stem.toString_inj {a b : String} (ha : Stem a) (hb : Stem b) {m n : Nat}
    (h : a ++ toString m = b ++ toString n) : a = b ∧ m = n := by
  obtain ⟨l, c, hl, hc⟩ := ha
  obtain ⟨k, e, hk, he⟩ := hb
  have hdigit : ∀ n : Nat, ∀ x ∈ (toString n).toList, x.isDigit = true := fun _ _ =>
    isDigit_of_mem_toString
  have hlast := congrArg (fun s => lastDigits s.toList) h
  simp only [String.toList_append, hl, hk] at hlast
  rw [lastDigits_append hc (hdigit m), lastDigits_append he (hdigit n)] at hlast
  have hmn : toString m = toString n := String.toList_injective (reverse_injective hlast)
  exact ⟨(String.append_left_inj _).mp (hmn ▸ h), toString_injective hmn⟩

end Dnet.Lib
