import Mathlib.Data.List.Lex
import Mathlib.Order.Compare
import Mathlib.Tactic.Ring.RingNF

/-!
# Bit strings in limbs

A bit string is packed into numbers of `w` bits, the first bit highest (`limb`), and a longer
one into a list of such numbers, of which only the last may be filled up with zeros (`limbs`).
The numbers of two strings compare as the strings do, as far as they reach.
-/

namespace Dnet.Lib

open List

/-- The number of `w` bits that starts with the bits of the list. -/
def limb : Nat → List Bool → Nat
  | w + 1, b :: l => b.toNat * 2 ^ w + limb w l
  | _, _ => 0

theorem limb_lt (w : Nat) (l : List Bool) : limb w l < 2 ^ w := by
  fun_induction limb w l with
  | case1 w b l ih =>
    have := Bool.toNat_le b
    have : b.toNat * 2 ^ w ≤ 1 * 2 ^ w := Nat.mul_le_mul_right _ this
    omega
  | case2 w l _ => exact Nat.two_pow_pos w

theorem limb_nil (w : Nat) : limb w [] = 0 := by cases w <;> rfl

theorem limb_shiftRight : ∀ {w n : Nat} (l : List Bool), n ≤ w →
    limb w l >>> (w - n) = limb n (l.take n)
  | w, 0, l, _ => by
    rw [Nat.sub_zero, Nat.shiftRight_eq_div_pow, Nat.div_eq_of_lt (limb_lt w l), take_zero, limb_nil]
  | w, n + 1, [], _ => by simp [limb_nil]
  | w + 1, n + 1, b :: l, h => by
    have hn : n ≤ w := Nat.le_of_succ_le_succ h
    have ih := limb_shiftRight l hn
    rw [Nat.shiftRight_eq_div_pow] at ih ⊢
    rw [take_succ_cons, limb, limb, ← ih, Nat.add_sub_add_right,
      show b.toNat * 2 ^ w = 2 ^ (w - n) * (b.toNat * 2 ^ n) by
        rw [Nat.mul_left_comm, ← Nat.pow_add, Nat.sub_add_cancel hn],
      Nat.mul_add_div (Nat.two_pow_pos _)]

theorem limb_concat : ∀ {w : Nat} {l : List Bool} (b : Bool), l.length < w →
    limb w (l ++ [b]) = limb w l ||| b.toNat <<< (w - 1 - l.length)
  | w + 1, [], b, _ => by simp [limb, limb_nil, Nat.shiftLeft_eq]
  | w + 1, a :: l, b, h => by
    have hl : l.length < w := Nat.lt_of_succ_lt_succ h
    have ih := limb_concat b hl
    have hlt := limb_lt w (l ++ [b])
    rw [ih] at hlt
    rw [cons_append, limb, limb, ih, length_cons, Nat.add_sub_cancel,
      show w - (l.length + 1) = w - 1 - l.length by omega, Nat.mul_comm a.toNat,
      Nat.two_pow_add_eq_or_of_lt hlt, Nat.two_pow_add_eq_or_of_lt (limb_lt w l), Nat.or_assoc]

theorem limb_lt_limb : ∀ {w : Nat} {l m x : List Bool} (y : List Bool), limb w l < limb w m →
    x = [] ∨ l.length = w → l ++ x < m ++ y
  | w, l, [], _, _, h, _ => absurd h (by simp [limb_nil])
  | 0, _, _ :: _, _, _, h, _ => absurd h (Nat.lt_irrefl 0)
  | w + 1, [], c :: m, x, y, _, hx => by
    rw [hx.resolve_right nofun]
    exact nil_lt_cons c (m ++ y)
  | w + 1, a :: l, c :: m, x, y, h, hx => by
    have hx' : x = [] ∨ l.length = w := hx.imp_right Nat.succ.inj
    have hl := limb_lt w l
    have hm := limb_lt w m
    rw [limb, limb] at h
    rw [cons_append, cons_append, cons_lt_cons_iff]
    cases a <;> cases c
    · exact .inr ⟨rfl, limb_lt_limb y (by simpa using h) hx'⟩
    · exact .inl rfl
    · simp only [Bool.toNat_true, Bool.toNat_false] at h
      omega
    · exact .inr ⟨rfl, limb_lt_limb y (by simpa using h) hx'⟩

theorem prefix_of_limb_eq : ∀ {w : Nat} {l m : List Bool}, limb w l = limb w m →
    l.length ≤ m.length → m.length ≤ w → l <+: m
  | _, [], _, _, _, _ => nil_prefix
  | 0, _ :: _, _, _, hlm, hm => absurd (hlm.trans hm) (Nat.not_succ_le_zero _)
  | w + 1, a :: l, c :: m, h, hlm, hm => by
    have hl := limb_lt w l
    have hm' := limb_lt w m
    rw [limb, limb] at h
    have hac : a = c := by
      cases a <;> cases c <;> simp only [Bool.toNat_true, Bool.toNat_false] at h <;> first | rfl | omega
    subst hac
    exact cons_prefix_cons.mpr ⟨rfl, prefix_of_limb_eq (Nat.add_left_cancel h)
      (Nat.le_of_succ_le_succ hlm) (Nat.le_of_succ_le_succ hm)⟩

/-! ## Lists of limbs -/

/-- The limbs of a bit string; only the last may have fewer than `w` bits. -/
def limbs (w : Nat) (l : List Bool) : List Nat :=
  if 0 < w ∧ w < l.length then limb w (l.take w) :: limbs w (l.drop w) else [limb w l]
termination_by l.length
decreasing_by
  rw [length_drop]
  omega

section

variable {w : Nat} {l m x y : List Bool} {o : Ordering}

theorem limbs_eq (hw : 0 < w) (l : List Bool) :
    limbs w l = limb w (l.take w) :: if w < l.length then limbs w (l.drop w) else [] := by
  by_cases h : w < l.length
  · rw [limbs, if_pos ⟨hw, h⟩, if_pos h]
  · rw [limbs, if_neg fun hc => h hc.2, if_neg h, take_of_length_le (Nat.not_lt.mp h)]

theorem limbs_long (hw : 0 < w) (h : w < l.length) :
    limbs w l = limb w (l.take w) :: limbs w (l.drop w) := by
  rw [limbs, if_pos ⟨hw, h⟩]

theorem limbs_short (h : l.length ≤ w) : limbs w l = [limb w l] := by
  rw [limbs, if_neg fun hc => Nat.not_lt.mpr h hc.2]

theorem limbs_concat (hw : 0 < w) (b : Bool) {older : List Nat} {hot : Nat}
    (h : limbs w l = older ++ [hot]) :
    w * older.length ≤ l.length ∧ l.length ≤ w * older.length + w ∧
    limbs w (l ++ [b]) = if l.length = w * older.length + w then older ++ [hot, limb w [b]]
      else older ++ [hot ||| b.toNat <<< (w - 1 - (l.length - w * older.length))] := by
  induction older generalizing l with
  | nil =>
    have hl : l.length ≤ w := by
      by_contra hl
      rw [limbs_long hw (Nat.not_le.mp hl), limbs_eq hw (l.drop w)] at h
      cases h
    rw [limbs_short hl, nil_append, cons.injEq] at h
    simp only [length_nil, Nat.mul_zero, Nat.zero_le, Nat.zero_add, Nat.sub_zero, nil_append, true_and]
    refine ⟨hl, ?_⟩
    split
    · next he =>
      rw [limbs_long hw (by simp [he]), take_left' he, drop_left' he, limbs_short (by simpa), h.1]
    · next he =>
      have hlt : l.length < w := by omega
      rw [limbs_short (by simpa), limb_concat b hlt, h.1]
  | cons a older ih =>
    have hl : w < l.length := by
      by_contra hl
      rw [limbs_short (Nat.not_lt.mp hl)] at h
      simp at h
    rw [limbs_long hw hl, cons_append, cons.injEq] at h
    obtain ⟨h1, h2, h3⟩ := ih h.2
    rw [length_drop] at h1 h2 h3
    rw [limbs_long (l := l ++ [b]) hw (by rw [length_append]; omega), take_append_of_le_length hl.le,
      drop_append_of_le_length hl.le, h3, length_cons, Nat.mul_succ, h.1,
      show l.length - (w * older.length + w) = l.length - w - w * older.length by omega]
    refine ⟨by omega, by omega, ?_⟩
    split
    · rw [if_pos (by omega), cons_append]
    · rw [if_neg (by omega), cons_append]

/-! ## The order of limbs -/

/-- The first pair of limbs that differ decides. -/
def cmpLimbs : List Nat → List Nat → Ordering
  | a :: as, b :: bs => (compare a b).then (cmpLimbs as bs)
  | _, _ => .eq

theorem compares_limb (hx : x = [] ∨ l.length = w) (hy : y = [] ∨ m.length = w)
    (h : limb w l = limb w m → o.Compares (l ++ x) (m ++ y)) :
    ((compare (limb w l) (limb w m)).then o).Compares (l ++ x) (m ++ y) := by
  rcases lt_trichotomy (limb w l) (limb w m) with hlt | heq | hgt
  · rw [compare_lt_iff_lt.mpr hlt]
    exact limb_lt_limb y hlt hx
  · rw [compare_eq_iff_eq.mpr heq]
    exact h heq
  · rw [compare_gt_iff_gt.mpr hgt]
    exact limb_lt_limb x hgt hy

theorem compares_append (h : o.Compares x y) (l : List Bool) : o.Compares (l ++ x) (l ++ y) := by
  cases o with
  | lt => exact append_left_lt h
  | eq => exact congrArg (l ++ ·) h
  | gt => exact append_left_lt h

theorem compares_length (k : Nat) (h : l <+: m ∨ m <+: l) :
    (compare (k + l.length) (k + m.length)).Compares l m := by
  have hpre {l m : List Bool} (h : l <+: m) : (compare (k + l.length) (k + m.length)).Compares l m := by
    obtain ⟨_ | ⟨a, t⟩, rfl⟩ := h
    · rw [append_nil, compare_eq_iff_eq.mpr rfl]
      exact rfl
    · have hlt : l ++ [] < l ++ a :: t := append_left_lt (nil_lt_cons a t)
      rw [compare_lt_iff_lt.mpr (by simp)]
      rwa [append_nil] at hlt
  rcases h with h | h
  · exact hpre h
  · rw [← Nat.compare_swap]
    exact (hpre h).swap

/-- Strings with the same first limb, one of them no longer than that. -/
theorem prefix_of_limb_take_eq (he : limb w (l.take w) = limb w (m.take w)) (hl : l.length ≤ w) :
    l <+: m ∨ m <+: l := by
  rw [take_of_length_le hl] at he
  rcases Nat.le_total l.length m.length with hlm | hlm
  · have hpre := prefix_of_limb_eq he (by rw [length_take]; omega) (by rw [length_take]; omega)
    exact .inl (hpre.trans ⟨m.drop w, take_append_drop w m⟩)
  · rw [take_of_length_le (hlm.trans hl)] at he
    exact .inr (prefix_of_limb_eq he.symm hlm hl)

/-- The limbs, and the lengths where they agree, compare as the strings do. -/
theorem compares_limbs (hw : 0 < w) (k : Nat) (l m : List Bool) :
    ((cmpLimbs (limbs w l) (limbs w m)).then (compare (k + l.length) (k + m.length))).Compares l m := by
  induction hlen : l.length using Nat.strong_induction_on generalizing k l m with
  | h n ih =>
    subst hlen
    have hfull (l : List Bool) : l.drop w = [] ∨ (l.take w).length = w := by
      rcases Nat.le_total l.length w with h | h
      · exact .inl (drop_of_length_le h)
      · exact .inr (length_take_of_le h)
    have h := fun o => compares_limb (o := o) (hfull l) (hfull m)
    simp only [take_append_drop] at h
    rw [limbs_eq hw l, limbs_eq hw m, cmpLimbs, Ordering.then_assoc]
    refine h _ fun he => ?_
    by_cases hl : w < l.length
    · by_cases hm : w < m.length
      · have hlen : (l.take w).length = (m.take w).length := by rw [length_take, length_take]; omega
        have hpre := prefix_of_limb_eq he hlen.le (length_take_le w m)
        have h := compares_append (ih _ (by rw [length_drop]; omega) (k + w) (l.drop w) (m.drop w) rfl)
          (l.take w)
        rw [length_drop, length_drop, Nat.add_assoc, Nat.add_assoc, Nat.add_sub_cancel' hl.le,
          Nat.add_sub_cancel' hm.le, take_append_drop, hpre.eq_of_length hlen, take_append_drop] at h
        rwa [if_pos hl, if_pos hm]
      · rw [if_neg hm, show ∀ as, cmpLimbs as [] = .eq from fun as => by cases as <;> rfl]
        exact compares_length k (prefix_of_limb_take_eq he.symm (Nat.not_lt.mp hm)).symm
    · rw [if_neg hl]
      exact compares_length k (prefix_of_limb_take_eq he (Nat.not_lt.mp hl))

end

end Dnet.Lib
