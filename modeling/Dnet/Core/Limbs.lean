import Dnet.Core.Port
import Dnet.Lib.Limb
import Dnet.Lib.Loop
import Mathlib.Data.List.Induction

/-!
# Paths in limbs

The representation of `LOPath` in the source (lopath.rs): up to four `u128` limbs, of which
`hot` is the one that is filled and `frozen`, `cold` and `warm` are the full ones before it. A
path that was built from the root is the packed form of its bits (`Packs`), so it is equal,
ordered and a prefix as the bits are (`path_bits`), and `LOPath` may be taken for the bits.
-/

namespace Dnet

open Lib List

/-- `LOPath` of the source. The limbs are `u128`s; `len` counts the bits of `hot`. -/
structure PackedPath where
  hot : Nat
  warm : Option Nat
  cold : Option Nat
  frozen : Option Nat
  len : Nat
  deriving DecidableEq, Repr

namespace PackedPath

def root : PackedPath := ⟨0, none, none, none, 0⟩

section

variable (p : PackedPath)

def extendBit (bit : Bool) : Except DnxError PackedPath := do
  let out ←
    if p.len = 128 then
      match p.warm, p.cold, p.frozen with
      | none, _, _ => .ok { p with warm := some p.hot, hot := 0, len := 0 }
      | some w, none, _ => .ok { p with cold := some w, warm := some p.hot, hot := 0, len := 0 }
      | some w, some c, none =>
        .ok { frozen := some c, cold := some w, warm := some p.hot, hot := 0, len := 0 }
      | some _, some _, some _ => .error .lOPathDepthExceeded
    else .ok p
  return { out with hot := out.hot ||| bit.toNat <<< (127 - out.len), len := out.len + 1 }

def extendRight : Except DnxError PackedPath := p.extendBit true

def extendLeft : Except DnxError PackedPath := p.extendBit false

def depth : Nat :=
  let full := if p.frozen.isSome then 3 else if p.cold.isSome then 2 else if p.warm.isSome then 1 else 0
  full * 128 + p.len

def nLimbs : Nat :=
  1 + p.warm.isSome.toNat + p.cold.isSome.toNat + p.frozen.isSome.toNat

def allLimbs : List Nat :=
  p.frozen.toList ++ p.cold.toList ++ p.warm.toList ++ [p.hot]

def nthLimb (i : Nat) : Nat := p.allLimbs.getD i 0

end

/-- The loop of `is_prefix_of`, from limb `i` on: the last of the `n` limbs is compared
without its lowest bits. -/
def prefixFrom (other : PackedPath) (n shift : Nat) : Nat → List Nat → Bool
  | _, [] => true
  | i, limb :: rest =>
    if i + 1 < n then
      if limb ≠ other.nthLimb i then false else prefixFrom other n shift (i + 1) rest
    else if limb >>> shift ≠ other.nthLimb i >>> shift then false
    else prefixFrom other n shift (i + 1) rest

def isPrefixOf (p other : PackedPath) : Bool :=
  if p.depth = 0 then true
  else if p.depth > other.depth then false
  else prefixFrom other p.nLimbs (128 - p.len) 0 p.allLimbs

def shardKey (p : PackedPath) : Option Nat :=
  if p.depth = 0 then none
  else some ((((p.frozen.or p.cold).or p.warm).getD p.hot) >>> 127)

def cmp (p q : PackedPath) : Ordering :=
  (cmpLimbs p.allLimbs q.allLimbs).then (compare p.depth q.depth)

/-- The path that is built from the root, `false` for `extend_left`. -/
def path (bits : List Bool) : Except DnxError PackedPath :=
  bits.foldlM (fun p b => if b then p.extendRight else p.extendLeft) root

/-! ## The bits of a path -/

/-- The full limbs of a path, the first ones first. -/
inductive Full : PackedPath → List Nat → Prop where
  | none {hot len : Nat} : Full ⟨hot, .none, .none, .none, len⟩ []
  | warm {hot len w : Nat} : Full ⟨hot, some w, .none, .none, len⟩ [w]
  | cold {hot len w c : Nat} : Full ⟨hot, some w, some c, .none, len⟩ [c, w]
  | frozen {hot len w c f : Nat} : Full ⟨hot, some w, some c, some f, len⟩ [f, c, w]

section

variable {p q : PackedPath} {l m : List Bool} {full full' : List Nat}

theorem Full.allLimbs (h : p.Full full) : p.allLimbs = full ++ [p.hot] := by cases h <;> rfl

theorem Full.nLimbs (h : p.Full full) : p.nLimbs = full.length + 1 := by cases h <;> rfl

theorem Full.depth (h : p.Full full) : p.depth = 128 * full.length + p.len := by
  cases h <;> simp [PackedPath.depth]

theorem Full.first (h : p.Full full) :
    ((p.frozen.or p.cold).or p.warm).getD p.hot = (full ++ [p.hot]).headD 0 := by cases h <;> rfl

theorem Full.extendBit (h : p.Full full) (b : Bool) :
    (p.len ≠ 128 → ∃ q, p.extendBit b = .ok q ∧ q.Full full ∧
      q.hot = p.hot ||| b.toNat <<< (127 - p.len) ∧ q.len = p.len + 1) ∧
    (p.len = 128 → (full.length = 3 ∧ p.extendBit b = .error .lOPathDepthExceeded) ∨
      (full.length < 3 ∧ ∃ q, p.extendBit b = .ok q ∧ q.Full (full ++ [p.hot]) ∧
        q.hot = 0 ||| b.toNat <<< 127 ∧ q.len = 1)) := by
  refine ⟨fun hlen => ?_, fun hlen => ?_⟩ <;> unfold PackedPath.extendBit
  · rw [if_neg hlen]
    refine ⟨_, rfl, ?_, rfl, rfl⟩
    cases h <;> constructor
  · rw [if_pos hlen]
    cases h with
    | none => exact .inr ⟨by decide, _, rfl, .warm, rfl, rfl⟩
    | warm => exact .inr ⟨by simp, _, rfl, .cold, rfl, rfl⟩
    | cold => exact .inr ⟨by simp, _, rfl, .frozen, rfl, rfl⟩
    | frozen => exact .inl ⟨rfl, rfl⟩

/-- The path holds the bits. -/
structure Packs (p : PackedPath) (bits : List Bool) (full : List Nat) : Prop where
  shape : p.Full full
  limbs : limbs 128 bits = full ++ [p.hot]
  length : bits.length = 128 * full.length + p.len
  len_le : p.len ≤ 128
  filled : bits ≠ [] → 0 < p.len

theorem packs_root : Packs root [] [] :=
  ⟨.none, limbs_short (Nat.zero_le _), rfl, Nat.zero_le _, fun h => absurd rfl h⟩

theorem Packs.extendBit (h : p.Packs l full) (b : Bool) :
    (l.length = 512 ∧ p.extendBit b = .error .lOPathDepthExceeded) ∨
      (l.length < 512 ∧ ∃ q full', p.extendBit b = .ok q ∧ q.Packs (l ++ [b]) full') := by
  obtain ⟨hfull, hlimbs, hlength, hle, -⟩ := h
  obtain ⟨-, -, hconcat⟩ := limbs_concat (by decide) b hlimbs
  have hthree : full.length ≤ 3 := by cases hfull <;> simp
  by_cases hlen : p.len = 128
  · rw [if_pos (by omega)] at hconcat
    rcases (hfull.extendBit b).2 hlen with ⟨hn, herr⟩ | ⟨hn, q, hq, hfull', hhot, hqlen⟩
    · exact .inl ⟨by omega, herr⟩
    · refine .inr ⟨by omega, q, _, hq, hfull', ?_, ?_, by omega, fun _ => by omega⟩
      · rw [hconcat, hhot, ← limb_nil 128, append_assoc]
        exact congrArg (fun x => full ++ [p.hot, x]) (limb_concat (l := []) b (by decide))
      · simp only [length_append, length_singleton]
        omega
  · obtain ⟨q, hq, hfull', hhot, hqlen⟩ := (hfull.extendBit b).1 hlen
    refine .inr ⟨by omega, q, full, hq, hfull', ?_, ?_, by omega, fun _ => by omega⟩
    · rw [hconcat, if_neg (by omega), hhot,
        show 128 - 1 - (l.length - 128 * full.length) = 127 - p.len by omega]
    · rw [length_append, length_singleton]
      omega

theorem path_concat (l : List Bool) (b : Bool) : path (l ++ [b]) = (path l).bind (·.extendBit b) := by
  rw [path, foldlM_append]
  cases b <;> simp only [foldlM_cons, foldlM_nil, bind_pure] <;> rfl

theorem path_packs (l : List Bool) : (l.length ≤ 512 ∧ ∃ p full, path l = .ok p ∧ p.Packs l full) ∨
    (512 < l.length ∧ ∃ e, path l = .error e) := by
  induction l using reverseRecOn with
  | nil => exact .inl ⟨Nat.zero_le _, root, [], rfl, packs_root⟩
  | append_singleton l b ih =>
    rw [path_concat, length_append, length_singleton]
    rcases ih with ⟨hl, p, full, hp, hpacks⟩ | ⟨hl, e, he⟩
    · rw [hp]
      rcases hpacks.extendBit b with ⟨h, herr⟩ | ⟨h, q, full', hq, hpacks'⟩
      · exact .inr ⟨by omega, _, herr⟩
      · exact .inl ⟨by omega, q, full', hq, hpacks'⟩
    · exact .inr ⟨by omega, e, by rw [he]; rfl⟩

/-- The loop of `is_prefix_of` compares what is left of the bits. -/
theorem prefixFrom_limbs {other : PackedPath} {n shift i : Nat} {l m : List Bool}
    (hlm : l.length ≤ m.length) (hn : n = i + (limbs 128 l).length)
    (hshift : shift + l.length = 128 * (limbs 128 l).length)
    (hother : other.allLimbs.drop i = limbs 128 m) :
    prefixFrom other n shift i (limbs 128 l) = true ↔ l <+: m := by
  have hnth : other.nthLimb i = limb 128 (m.take 128) := by
    rw [nthLimb, getD_eq_getElem?_getD, ← head?_drop, hother, limbs_eq (by decide)]
    rfl
  by_cases hl : 128 < l.length
  · have hm : 128 < m.length := hl.trans_le hlm
    rw [limbs_long (by decide) hl, length_cons] at hn hshift
    rw [limbs_long (by decide) hm] at hother
    have hpos : 0 < (limbs 128 (l.drop 128)).length := by
      rw [limbs_eq (by decide)]
      exact Nat.succ_pos _
    have hother' : other.allLimbs.drop (i + 1) = limbs 128 (m.drop 128) := by
      rw [← tail_drop, hother, tail_cons]
    have hshift' : shift + (l.drop 128).length = 128 * (limbs 128 (l.drop 128)).length := by
      rw [length_drop]
      omega
    have ih := prefixFrom_limbs (n := n) (by rw [length_drop, length_drop]; omega) (by omega) hshift'
      hother'
    have hsplit : l <+: m ↔ l.take 128 = m.take 128 ∧ l.drop 128 <+: m.drop 128 := by
      constructor
      · rintro ⟨t, rfl⟩
        rw [take_append_of_le_length hl.le, drop_append_of_le_length hl.le]
        exact ⟨rfl, prefix_append _ _⟩
      · rintro ⟨h1, h2⟩
        rw [← take_append_drop 128 l, ← take_append_drop 128 m, h1]
        exact (prefix_append_right_inj _).mpr h2
    rw [limbs_long (by decide) hl, prefixFrom, if_pos (by omega), hnth, hsplit]
    by_cases he : limb 128 (l.take 128) = limb 128 (m.take 128)
    · have htake : (l.take 128).length = (m.take 128).length := by
        rw [length_take, length_take]
        omega
      have heq := (prefix_of_limb_eq he htake.le (length_take_le _ _)).eq_of_length htake
      rw [if_neg (not_not.mpr he), ih, and_iff_right heq]
    · rw [if_pos he]
      exact iff_of_false nofun fun h => he (congrArg _ h.1)
  · have hl : l.length ≤ 128 := Nat.not_lt.mp hl
    rw [limbs_short hl, length_singleton] at hn hshift
    have hmin : (m.take 128).take l.length = m.take l.length := by rw [take_take, min_eq_left hl]
    rw [limbs_short hl, prefixFrom, if_neg (by omega), hnth, show shift = 128 - l.length by omega,
      limb_shiftRight _ hl, limb_shiftRight _ hl, hmin, take_length, prefix_iff_eq_take]
    by_cases he : limb l.length l = limb l.length (m.take l.length)
    · have htake : (m.take l.length).length = l.length := length_take_of_le hlm
      have hpre := prefix_of_limb_eq he htake.ge htake.le
      rw [if_neg (not_not.mpr he)]
      exact iff_of_true rfl (hpre.eq_of_length htake.symm)
    · rw [if_pos he]
      exact iff_of_false nofun fun h => he (congrArg _ h)
termination_by l.length
decreasing_by
  rw [length_drop]
  omega

theorem Packs.isPrefixOf (h : p.Packs l full) (h' : q.Packs m full') :
    p.isPrefixOf q = true ↔ l <+: m := by
  have hdepth : p.depth = l.length := h.shape.depth.trans h.length.symm
  have hdepth' : q.depth = m.length := h'.shape.depth.trans h'.length.symm
  unfold PackedPath.isPrefixOf
  rw [hdepth, hdepth']
  by_cases hl : l = []
  · subst hl
    exact iff_of_true rfl nil_prefix
  · rw [if_neg (by simpa using hl)]
    by_cases hlm : l.length > m.length
    · rw [if_pos hlm]
      exact iff_of_false nofun fun hpre => absurd hpre.length_le (Nat.not_le.mpr hlm)
    · have hlen := h.length
      have hle := h.len_le
      rw [if_neg hlm, h.shape.allLimbs, ← h.limbs]
      refine prefixFrom_limbs (Nat.not_lt.mp hlm) ?_ ?_ ?_
      · rw [h.shape.nLimbs, h.limbs, length_append, length_singleton, Nat.zero_add]
      · rw [h.limbs, length_append, length_singleton]
        omega
      · rw [h'.shape.allLimbs, drop_zero, h'.limbs]

theorem Packs.shardKey (h : p.Packs l full) : p.shardKey = l.head?.map Bool.toNat := by
  unfold PackedPath.shardKey
  rw [h.shape.depth, ← h.length, h.shape.first, ← h.limbs, limbs_eq (by decide)]
  cases l with
  | nil => rfl
  | cons b l =>
    rw [if_neg (by simp), headD_cons, show (127 : Nat) = 128 - 1 from rfl, limb_shiftRight _ (by decide)]
    simp [limb]

theorem Packs.compares (h : p.Packs l full) (h' : q.Packs m full') : (p.cmp q).Compares l m := by
  have hdec := compares_limbs (w := 128) (by decide) 0 l m
  rw [Nat.zero_add, Nat.zero_add, h.limbs, h'.limbs, ← h.shape.allLimbs, ← h'.shape.allLimbs, h.length,
    h'.length, ← h.shape.depth, ← h'.shape.depth] at hdec
  exact hdec

/-- A path that was built from the root is its string of bits. -/
theorem path_bits : (∀ l, (∃ p, path l = .ok p) ↔ l.length ≤ 512) ∧
    ∀ {l m : List Bool} {p q : PackedPath}, path l = .ok p → path m = .ok q →
      (p = q ↔ l = m) ∧ (p.cmp q = .lt ↔ l < m) ∧ (p.cmp q = .gt ↔ m < l) ∧
      (p.isPrefixOf q = true ↔ l <+: m) ∧ p.depth = l.length ∧
      p.shardKey = l.head?.map Bool.toNat ∧
      ∀ b, (∃ e, p.extendBit b = .error e) ↔ l.length = 512 := by
  have hpacks {l : List Bool} {p : PackedPath} (hp : path l = .ok p) : ∃ full, p.Packs l full := by
    rcases path_packs l with ⟨-, p', full, hp', h⟩ | ⟨-, e, he⟩
    · cases hp.symm.trans hp'
      exact ⟨full, h⟩
    · cases hp.symm.trans he
  refine ⟨fun l => ?_, fun {l m p q} hp hq => ?_⟩
  · rcases path_packs l with ⟨hl, p, -, hp, -⟩ | ⟨hl, e, he⟩
    · exact iff_of_true ⟨p, hp⟩ hl
    · exact iff_of_false (fun ⟨p, hp⟩ => by cases hp.symm.trans he) (Nat.not_le.mpr hl)
  · obtain ⟨full, h⟩ := hpacks hp
    obtain ⟨full', h'⟩ := hpacks hq
    have hcmp := h.compares h'
    refine ⟨⟨?_, ?_⟩, hcmp.eq_lt, hcmp.eq_gt, h.isPrefixOf h',
      h.shape.depth.trans h.length.symm, h.shardKey, fun b => ?_⟩
    · rintro rfl
      exact hcmp.eq_eq.mp ((h.compares h).eq_eq.mpr rfl)
    · rintro rfl
      cases hp.symm.trans hq
      rfl
    · rcases h.extendBit b with ⟨hl, herr⟩ | ⟨hl, q', -, hq', -⟩
      · exact iff_of_true ⟨_, herr⟩ hl
      · exact iff_of_false (fun ⟨e, he⟩ => by cases he.symm.trans hq') hl.ne

/-- Two paths on both sides of a limb boundary. -/
theorem path_bits_boundary : ∃ p q, path (replicate 128 true) = .ok p ∧
    path (replicate 129 true) = .ok q ∧ p.isPrefixOf q = true ∧ p ≠ q := by
  obtain ⟨p, hp⟩ := (path_bits.1 (replicate 128 true)).mpr (by simp)
  obtain ⟨q, hq⟩ := (path_bits.1 (replicate 129 true)).mpr (by simp)
  obtain ⟨heq, -, -, hpre, -⟩ := path_bits.2 hp hq
  exact ⟨p, q, hp, hq, hpre.mpr ⟨[true], replicate_succ'.symm⟩, heq.not.mpr (by simp)⟩

end

end PackedPath

end Dnet
