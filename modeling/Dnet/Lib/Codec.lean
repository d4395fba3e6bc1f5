import Dnet.Lib.Bytes
import Mathlib.Algebra.BigOperators.Group.List.Basic

/-!
# Exact readers

A reader is *exact* for an encoding when the inputs it accepts are those that start with an
encoded value, and it then returns that value and what follows it. Exactness composes along a
reader's binds, so a format is inverted field by field.

The inputs are bounded by `size`: a length field is exact only for what it can hold. A reader
that forgets something, such as which nonzero byte stood for `true`, still *restores* what was
encoded.
-/

namespace Dnet.Lib

open List

variable {ε α β : Type} {r : Reader ε α} {f : α → Reader ε β}

theorem reader_bind_eq_ok {s : List UInt8} {p : β × List UInt8} :
    (r >>= f) s = .ok p ↔ ∃ a s', r s = .ok (a, s') ∧ f a s' = .ok p := by
  show (r s >>= fun q => f q.1 q.2) = .ok p ↔ _
  rw [bind_eq_ok, Prod.exists]

theorem reader_bind_eq_error {s : List UInt8} {e : ε} :
    (r >>= f) s = .error e ↔ r s = .error e ∨ ∃ a s', r s = .ok (a, s') ∧ f a s' = .error e := by
  show (r s >>= fun q => f q.1 q.2) = .error e ↔ _
  rw [bind_eq_error, Prod.exists]

theorem length_le_flatMap {l : List α} {f : α → List β} (h : ∀ a ∈ l, f a ≠ []) :
    l.length ≤ (l.flatMap f).length := by
  have hsum := length_le_sum_of_one_le (l.map fun a => (f a).length) fun i hi => by
    obtain ⟨a, ha, rfl⟩ := mem_map.mp hi
    exact length_pos_iff.mpr (h a ha)
  rwa [length_map, ← length_flatMap] at hsum

/-! ## Bytes, numbers and blobs -/

section

variable {e : ε} {w : Nat} {s s' : List UInt8}

theorem readBytes_eq_ok {b : List UInt8} :
    readBytes e w s = .ok (b, s') ↔ b.length = w ∧ s = b ++ s' := by
  unfold readBytes
  constructor
  · intro h
    split at h
    · next hw =>
      cases h
      exact ⟨length_take_of_le hw, (take_append_drop w s).symm⟩
    · cases h
  · rintro ⟨rfl, rfl⟩
    rw [if_pos (by simp), take_left, drop_left]

theorem readBytes_short (h : s.length < w) : readBytes e w s = .error e := if_neg (Nat.not_le.mpr h)

theorem readLe_eq_ok {n : Nat} :
    readLe e w s = .ok (n, s') ↔ n < 256 ^ w ∧ s = leBytes w n ++ s' := by
  unfold readLe
  rw [reader_bind_eq_ok]
  constructor
  · rintro ⟨b, s1, hb, h⟩
    cases h
    obtain ⟨rfl, rfl⟩ := readBytes_eq_ok.mp hb
    exact ⟨ofLe_lt b, by rw [leBytes_ofLe]⟩
  · rintro ⟨hn, rfl⟩
    refine ⟨leBytes w n, s', readBytes_eq_ok.mpr ⟨length_leBytes w n, rfl⟩, ?_⟩
    rw [ofLe_leBytes hn]
    rfl

/-- Take `w` bytes, as an array of that size. -/
def readArray (e : ε) (w : Nat) : Reader ε { b : List UInt8 // b.length = w } := fun s =>
  if h : w ≤ s.length then .ok (⟨s.take w, length_take_of_le h⟩, s.drop w) else .error e

theorem readArray_eq_ok {b : { b : List UInt8 // b.length = w }} :
    readArray e w s = .ok (b, s') ↔ s = b.1 ++ s' := by
  unfold readArray
  constructor
  · intro h
    split at h
    · cases h
      exact (take_append_drop w s).symm
    · cases h
  · rintro rfl
    have hw : w ≤ (b.1 ++ s').length := by simp [b.2]
    rw [dif_pos hw]
    simp only [take_left' b.2, drop_left' b.2]

/-- Take a length of `w` bytes and then as many bytes. -/
def readBlob (e : ε) (w : Nat) : Reader ε (List UInt8) := do
  readBytes e (← readLe e w)

theorem readBlob_eq_ok {b : List UInt8} :
    readBlob e w s = .ok (b, s') ↔ b.length < 256 ^ w ∧ s = leBytes w b.length ++ b ++ s' := by
  unfold readBlob
  rw [reader_bind_eq_ok]
  constructor
  · rintro ⟨n, s1, hn, hb⟩
    obtain ⟨hlt, rfl⟩ := readLe_eq_ok.mp hn
    obtain ⟨rfl, rfl⟩ := readBytes_eq_ok.mp hb
    exact ⟨hlt, by rw [append_assoc]⟩
  · rintro ⟨hlt, rfl⟩
    rw [append_assoc]
    exact ⟨_, _, readLe_eq_ok.mpr ⟨hlt, rfl⟩, readBytes_eq_ok.mpr ⟨rfl, rfl⟩⟩

theorem lengthPrefixed_inj {a b t : List UInt8} (ha : a.length < 256 ^ w)
    (hb : b.length < 256 ^ w)
    (heq : leBytes w a.length ++ (a ++ s) = leBytes w b.length ++ (b ++ t)) : a = b ∧ s = t := by
  rw [← append_assoc, ← append_assoc] at heq
  have hread : readBlob () w _ = .ok (a, s) := readBlob_eq_ok.mpr ⟨ha, rfl⟩
  have hread' : readBlob () w _ = .ok (b, t) := readBlob_eq_ok.mpr ⟨hb, heq⟩
  exact Prod.mk.inj (Except.ok.inj (hread.symm.trans hread'))

end

/-! ## Restoring -/

/-- What was encoded is read back, and the reader stops where the encoding ends. -/
def Restores (r : Reader ε α) (enc : α → List UInt8) (P : α → Prop) : Prop :=
  ∀ a s, P a → r (enc a ++ s) = .ok (a, s)

variable {enc : α → List UInt8} {P : α → Prop}

theorem Restores.many (h : Restores r enc P) : ∀ (l : List α) (s : List UInt8), (∀ a ∈ l, P a) →
      readMany r l.length (l.flatMap enc ++ s) = .ok (l, s)
  | [], _, _ => rfl
  | a :: l, s, hl => by
    rw [flatMap_cons, append_assoc]
    exact reader_bind_eq_ok.mpr ⟨a, _, h a _ (hl a mem_cons_self), reader_bind_eq_ok.mpr
      ⟨l, s, Restores.many h l s fun b hb => hl b (mem_cons_of_mem a hb), rfl⟩⟩

theorem Restores.counted (h : Restores r enc P) (e : ε) (w : Nat) :
    Restores (do readMany r (← readLe e w)) (fun l => leBytes w l.length ++ l.flatMap enc)
      fun l => l.length < 256 ^ w ∧ ∀ a ∈ l, P a := by
  rintro l s ⟨hlen, hl⟩
  rw [append_assoc]
  exact reader_bind_eq_ok.mpr ⟨l.length, _, readLe_eq_ok.mpr ⟨hlen, rfl⟩, h.many l s hl⟩

/-! ## Exactness -/

/-- Among the inputs of at most `size` bytes, `r` accepts those that start with an encoding
and returns what was encoded. -/
def Exact (size : Nat) (r : Reader ε α) (enc : α → List UInt8) : Prop :=
  ∀ {s : List UInt8} {a : α} {s' : List UInt8}, s.length ≤ size →
    (r s = .ok (a, s') ↔ s = enc a ++ s')

/-- On inputs of at most `size` bytes, `len` reads back the encodings of the numbers up to
`size`, and nothing that is no encoding. -/
def LengthField (size : Nat) (len : Reader ε Nat) (encLen : Nat → List UInt8) : Prop :=
  ∀ {s : List UInt8} {n : Nat} {s' : List UInt8}, s.length ≤ size →
    (len s = .ok (n, s') → s = encLen n ++ s') ∧ (n ≤ size → s = encLen n ++ s' → len s = .ok (n, s'))

theorem length_le_of_append {size : Nat} {s e s' : List UInt8} (hs : s.length ≤ size)
    (h : s = e ++ s') : s'.length ≤ size := by
  rw [h, length_append] at hs
  omega

namespace Exact

variable {size : Nat} {r : Reader ε α} {enc : α → List UInt8} {encLen : Nat → List UInt8}
  {len : Reader ε Nat}

theorem pair {r' : Reader ε β} {enc' : β → List UInt8} (h : Exact size r enc)
    (h' : Exact size r' enc') :
    Exact size (do return (← r, ← r')) fun p => enc p.1 ++ enc' p.2 := by
  rintro s ⟨a, b⟩ s' hs
  constructor
  · intro hr
    obtain ⟨a', s1, ha, hr⟩ := reader_bind_eq_ok.mp hr
    obtain ⟨b', s2, hb, hr⟩ := reader_bind_eq_ok.mp hr
    cases hr
    have h1 := (h hs).mp ha
    rw [h1, (h' (length_le_of_append hs h1)).mp hb, append_assoc]
  · intro hr
    rw [append_assoc] at hr
    exact reader_bind_eq_ok.mpr ⟨a, enc' b ++ s', (h hs).mpr hr,
      reader_bind_eq_ok.mpr ⟨b, s', (h' (length_le_of_append hs hr)).mpr rfl, rfl⟩⟩

theorem many (h : Exact size r enc) : ∀ {n : Nat} {s : List UInt8} {l : List α}
    {s' : List UInt8}, s.length ≤ size →
      (readMany r n s = .ok (l, s') ↔ l.length = n ∧ s = l.flatMap enc ++ s')
  | 0, s, l, s', _ => by
    constructor
    · intro hr
      cases hr
      exact ⟨rfl, rfl⟩
    · rintro ⟨hl, rfl⟩
      rw [length_eq_zero_iff.mp hl]
      rfl
  | n + 1, s, l, s', hs => by
    constructor
    · intro hr
      obtain ⟨a, s1, ha, hr⟩ := reader_bind_eq_ok.mp hr
      obtain ⟨l', s2, hl, hr⟩ := reader_bind_eq_ok.mp hr
      cases hr
      have h1 := (h hs).mp ha
      obtain ⟨hn, h2⟩ := (many h (length_le_of_append hs h1)).mp hl
      exact ⟨congrArg (· + 1) hn, by rw [h1, h2, flatMap_cons, append_assoc]⟩
    · rintro ⟨hl, hr⟩
      obtain ⟨a, l, rfl⟩ := exists_cons_of_length_eq_add_one hl
      rw [flatMap_cons, append_assoc] at hr
      exact reader_bind_eq_ok.mpr ⟨a, _, (h hs).mpr hr, reader_bind_eq_ok.mpr ⟨l, s',
        (many h (length_le_of_append hs hr)).mpr ⟨Nat.succ.inj hl, rfl⟩, rfl⟩⟩

/-- A length field and then a body of the length it gives. The length of a body is bounded by
its encoding, so on bounded inputs the field holds it. -/
theorem measured {body : Nat → Reader ε α} {measure : α → Nat} (hlen : LengthField size len encLen)
    (hbody : ∀ {n : Nat} {s : List UInt8} {a : α} {s' : List UInt8}, s.length ≤ size →
      (body n s = .ok (a, s') ↔ measure a = n ∧ s = enc a ++ s'))
    (hle : ∀ a, measure a ≤ (enc a).length) :
    Exact size (do body (← len)) fun a => encLen (measure a) ++ enc a := by
  intro s a s' hs
  constructor
  · intro hr
    obtain ⟨n, s1, hn, hr⟩ := reader_bind_eq_ok.mp hr
    have h1 := (hlen hs).1 hn
    obtain ⟨rfl, h2⟩ := (hbody (length_le_of_append hs h1)).mp hr
    rw [h1, h2, append_assoc]
  · intro hr
    have hfits : measure a ≤ size := by
      have hlength := congrArg List.length hr
      simp only [length_append] at hlength
      have := hle a
      omega
    rw [append_assoc] at hr
    exact reader_bind_eq_ok.mpr ⟨measure a, _, (hlen hs).2 hfits hr,
      (hbody (length_le_of_append hs hr)).mpr ⟨rfl, rfl⟩⟩

theorem counted
    (hlen : LengthField size len encLen) (h : Exact size r enc) (hne : ∀ a, enc a ≠ []) :
    Exact size (do readMany r (← len)) fun l => encLen l.length ++ l.flatMap enc :=
  measured hlen (many h) fun _ => length_le_flatMap fun a _ => hne a

end Exact

end Dnet.Lib
