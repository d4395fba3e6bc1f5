import Dnet.Lib.Loop
import Mathlib.Data.List.Sort
import Mathlib.Data.Prod.Lex
import Mathlib.Data.String.Basic

/-!
# Store paths

`StorePath` (path.rs): a BLAKE3 key and a name. The only constructor checks the name, so a
store path carries the check. `is_plain_name` (drv.rs) is the check that a derivation's name
gets; both are stated over the components that `std::path::Path` splits a string into
(`isPlainName_iff`, `isSingleComponent_iff`). A printed store path is read back (`parse_display`).
-/

namespace Dnet

open List

theorem pairwise_mergeSort_key {α κ : Type} [LinearOrder κ] (key : α → κ) (l : List α) :
    (l.mergeSort fun a b => key a ≤ key b).Pairwise fun a b => key a ≤ key b := by
  refine (pairwise_mergeSort (fun a b c hab hbc => ?_) (fun a b => ?_) l).imp
    fun hab => of_decide_eq_true hab
  · simp only [decide_eq_true_eq] at hab hbc ⊢
    exact hab.trans hbc
  · simp only [Bool.or_eq_true, decide_eq_true_eq]
    exact le_total _ _

/-- The bytes of a string. -/
def utf8 (s : String) : List UInt8 := s.toByteArray.data.toList

theorem utf8_append (s t : String) : utf8 (s ++ t) = utf8 s ++ utf8 t := by
  simp [utf8, String.toByteArray_append, ByteArray.data_append]

theorem utf8_injective : Function.Injective utf8 := by
  intro s t h
  refine String.toByteArray_inj.mp (ByteArray.ext ?_)
  exact Array.toList_inj.mp h

theorem fromUTF8?_eq_some {bytes : List UInt8} {s : String} :
    String.fromUTF8? bytes.toByteArray = some s ↔ bytes = utf8 s := by
  have hdata : ∀ b : ByteArray, b = bytes.toByteArray ↔ bytes = b.data.toList := by
    intro b
    rw [ByteArray.ext_iff, data_toByteArray, ← Array.toList_inj, toList_toArray]
    exact eq_comm
  unfold utf8
  rw [← hdata]
  unfold String.fromUTF8?
  split
  · next h =>
    rw [Option.some.injEq, ← String.toByteArray_inj]
    exact eq_comm
  · next h =>
    refine ⟨nofun, fun heq => absurd ?_ h⟩
    rw [← heq]
    exact s.isValidUTF8

/-! ## Components of a path -/

/-- `std::path::Component` on Unix, where there is no prefix. -/
inductive Component where
  | rootDir
  | curDir
  | parentDir
  | normal (name : String)
  deriving DecidableEq, Repr

/-- The component of a part between two separators; empty parts and inner dots are skipped. -/
def componentOf : List Char → Option Component
  | [] => none
  | ['.'] => none
  | ['.', '.'] => some .parentDir
  | part => some (.normal (String.ofList part))

/-- `Path::components`: a dot is kept only at the start of a relative path. -/
def components (path : String) : List Component :=
  let parts := path.toList.splitOn '/'
  if path.toList.head? = some '/' then .rootDir :: parts.filterMap componentOf
  else if parts.head? = some ['.'] then .curDir :: parts.filterMap componentOf
  else parts.filterMap componentOf

/-- `is_plain_name` (drv.rs). -/
def isPlainName (name : String) : Bool :=
  match components name with
  | [.normal c] => c = name
  | _ => false

/-- `char::is_control`: the general category Cc. -/
def isControl (c : Char) : Bool :=
  c.toNat < 0x20 || (0x7F ≤ c.toNat && c.toNat ≤ 0x9F)

/-- `is_single_component` (path.rs). -/
def isSingleComponent (name : String) : Bool :=
  let oneNormal := match components name with
    | [.normal _] => true
    | _ => false
  oneNormal && !name.toList.any fun c => isControl c || c = '\\' || c = '/'

/-! ## What the two checks admit -/

/-- A name that denotes an entry of the directory it is looked up in. -/
structure Plain (name : String) : Prop where
  nonempty : name ≠ ""
  notDot : name ≠ "."
  notDotDot : name ≠ ".."
  noSlash : '/' ∉ name.toList

theorem not_mem_of_mem_splitOn {sep : Char} : ∀ {cs part : List Char},
    part ∈ cs.splitOn sep → sep ∉ part
  | [], part, h => by
    rw [splitOn_nil, mem_singleton] at h
    exact h ▸ not_mem_nil
  | c :: cs, part, h => by
    have ih : ∀ part ∈ cs.splitOn sep, sep ∉ part := fun _ => not_mem_of_mem_splitOn
    rw [List.splitOn, splitOnP_cons_eq_if_modifyHead] at h
    split at h
    · rcases mem_cons.mp h with rfl | h
      · exact not_mem_nil
      · exact ih part h
    · next hc =>
      -- the character goes in front of the first part
      change part ∈ List.modifyHead (List.cons c) (cs.splitOn sep) at h
      cases hparts : cs.splitOn sep with
      | nil => simp [hparts] at h
      | cons p ps =>
        rw [hparts, modifyHead_cons] at h
        rw [hparts] at ih
        rcases mem_cons.mp h with rfl | h
        · have hne : sep ≠ c := fun heq => hc (by simp [heq])
          exact not_mem_cons_of_ne_of_not_mem hne (ih p mem_cons_self)
        · exact ih part (mem_cons_of_mem p h)

theorem splitOn_eq_self {sep : Char} {cs : List Char} (h : sep ∉ cs) : cs.splitOn sep = [cs] :=
  splitOnP_eq_singleton fun _ hc => beq_eq_false_iff_ne.mpr fun heq => h (heq ▸ hc)

theorem componentOf_eq_normal {part : List Char} {c : String}
    (h : componentOf part = some (.normal c)) :
    c = String.ofList part ∧ part ≠ [] ∧ part ≠ ['.'] ∧ part ≠ ['.', '.'] := by
  unfold componentOf at h
  split at h
  all_goals cases h
  next h1 h2 h3 => exact ⟨rfl, h1, h2, h3⟩

variable {name c : String}

theorem componentOf_of_plain (h : Plain name) : componentOf name.toList = some (.normal name) := by
  have hne : ∀ s : String, name ≠ s → name.toList ≠ s.toList := fun s hs heq =>
    hs (String.toList_inj.mp heq)
  unfold componentOf
  split
  · next heq => exact absurd heq (hne "" h.nonempty)
  · next heq => exact absurd heq (hne "." h.notDot)
  · next heq => exact absurd heq (hne ".." h.notDotDot)
  · rw [String.ofList_toList]

theorem components_of_plain (h : Plain name) : components name = [.normal name] := by
  have hhead : name.toList.head? ≠ some '/' := fun heq =>
    h.noSlash (mem_of_mem_head? heq)
  have hdot : name.toList ≠ ['.'] := fun heq =>
    h.notDot (String.toList_inj.mp heq)
  simp [components, splitOn_eq_self h.noSlash, hhead, hdot, componentOf_of_plain h]

theorem exists_part_of_mem_components (h : .normal c ∈ components name) :
    ∃ part ∈ name.toList.splitOn '/', componentOf part = some (.normal c) := by
  refine mem_filterMap.mp ?_
  unfold components at h
  dsimp only at h
  split at h
  · exact (mem_cons.mp h).resolve_left nofun
  · split at h
    · exact (mem_cons.mp h).resolve_left nofun
    · exact h

theorem plain_of_mem_components (h : .normal c ∈ components name) : Plain c := by
  obtain ⟨part, hpart, hc⟩ := exists_part_of_mem_components h
  obtain ⟨rfl, h1, h2, h3⟩ := componentOf_eq_normal hc
  have hne : ∀ s : String, part ≠ s.toList → String.ofList part ≠ s := fun s hs heq =>
    hs (by rw [← heq, String.toList_ofList])
  exact
    { nonempty := hne "" h1
      notDot := hne "." h2
      notDotDot := hne ".." h3
      noSlash := by
        rw [String.toList_ofList]
        exact not_mem_of_mem_splitOn hpart }

theorem isPlainName_iff : isPlainName name = true ↔ Plain name := by
  constructor
  · intro h
    unfold isPlainName at h
    split at h
    · next c hc =>
      rw [decide_eq_true_eq] at h
      exact plain_of_mem_components (by rw [hc, h]; exact mem_singleton_self _)
    · exact absurd h Bool.false_ne_true
  · intro h
    simp [isPlainName, components_of_plain h]

/-- The name rule of the store is the rule for derivation names and excludes the backslash
and the control characters. -/
theorem isSingleComponent_iff : isSingleComponent name = true ↔
      Plain name ∧ ∀ c ∈ name.toList, isControl c = false ∧ c ≠ '\\' := by
  constructor
  · intro h
    simp only [isSingleComponent, Bool.and_eq_true, Bool.not_eq_true', any_eq_false,
      Bool.or_eq_true, decide_eq_true_eq, not_or] at h
    obtain ⟨hone, hchars⟩ := h
    refine ⟨?_, fun c hc => ⟨Bool.eq_false_iff.mpr (hchars c hc).1.1, (hchars c hc).1.2⟩⟩
    split at hone
    · next c hc =>
      have hmem : .normal c ∈ components name := by rw [hc]; exact mem_singleton_self _
      obtain ⟨part, hpart, hc'⟩ := exists_part_of_mem_components hmem
      -- without a separator the name is its only part
      have hslash : '/' ∉ name.toList := fun hm => (hchars '/' hm).2 rfl
      rw [splitOn_eq_self hslash, mem_singleton] at hpart
      have heq := (componentOf_eq_normal hc').1
      rw [hpart, String.ofList_toList] at heq
      exact heq ▸ plain_of_mem_components hmem
    · exact absurd hone Bool.false_ne_true
  · rintro ⟨hplain, hchars⟩
    simp only [isSingleComponent, components_of_plain hplain, Bool.true_and, Bool.not_eq_true',
      any_eq_false, Bool.or_eq_true, decide_eq_true_eq, not_or]
    intro c hc
    exact ⟨⟨Bool.eq_false_iff.mp (hchars c hc).1, (hchars c hc).2⟩,
      fun heq => hplain.noSlash (heq ▸ hc)⟩

/-! ## Store paths -/

abbrev Blake3Hash := { bytes : List UInt8 // bytes.length = 32 }

/-- `StoreError`; the operating system's error is not looked into. -/
inductive StoreError where
  | io
  | badName (name : String)
  | hashMismatch
  | isTree
  deriving DecidableEq, Repr

/-- A key and a name that passed the check of `StorePath::new`. -/
structure StorePath where
  hash : Blake3Hash
  name : String
  single : isSingleComponent name = true
  deriving DecidableEq

namespace StorePath

def new (hash : Blake3Hash) (name : String) : Except StoreError StorePath :=
  if h : isSingleComponent name = true then .ok ⟨hash, name, h⟩ else .error (.badName name)

@[simp] theorem new_single (p : StorePath) : new p.hash p.name = .ok p := dif_pos p.single

variable {hash : Blake3Hash}

theorem new_eq_ok {name : String} {p : StorePath} :
    new hash name = .ok p ↔ hash = p.hash ∧ name = p.name := by
  unfold new
  split
  · constructor
    · intro h
      cases h
      exact ⟨rfl, rfl⟩
    · rintro ⟨rfl, rfl⟩
      rfl
  · next h =>
    refine ⟨nofun, ?_⟩
    rintro ⟨-, rfl⟩
    exact absurd p.single h

theorem new_eq_error {name : String} {e : StoreError} :
    new hash name = .error e ↔ isSingleComponent name = false ∧ e = .badName name := by
  unfold new
  split
  · next h => simp [h]
  · next h => simp [h, eq_comm]

/-! ### Printing and parsing -/

/-- One digit of `{byte:02x}`. -/
def hexDigit (n : Nat) : Char := Nat.digitChar n

def hexVal (c : Char) : Option UInt8 :=
  if '0' ≤ c ∧ c ≤ '9' then some (UInt8.ofNat (c.toNat - '0'.toNat))
  else if 'a' ≤ c ∧ c ≤ 'f' then some (UInt8.ofNat (c.toNat - 'a'.toNat + 10))
  else none

def hexByte (b : UInt8) : List Char := [hexDigit (b.toNat / 16), hexDigit (b.toNat % 16)]

/-- `Display`: the key in hex, a dash and the name. -/
def display (p : StorePath) : String :=
  String.ofList (p.hash.1.flatMap hexByte ++ '-' :: p.name.toList)

/-- The key at the front of a file name. -/
def readHex : (n : Nat) → List Char → Option ({ bytes : List UInt8 // bytes.length = n } × List Char)
  | 0, cs => some (⟨[], rfl⟩, cs)
  | n + 1, hi :: lo :: cs => do
    let hi ← hexVal hi
    let lo ← hexVal lo
    let (bytes, cs) ← readHex n cs
    some (⟨(hi <<< 4 ||| lo) :: bytes.1, congrArg (· + 1) bytes.2⟩, cs)
  | _ + 1, _ => none

/-- `parse`. The digits and the dash are ASCII, so the byte positions of the source are
character positions wherever it gets past them; all other input is the same error. -/
def parse (component : String) : Except StoreError StorePath :=
  match readHex 32 component.toList with
  | some (hash, '-' :: c :: name) => new hash (String.ofList (c :: name))
  | _ => .error (.badName component)

theorem hexVal_hexDigit : ∀ n < 16, hexVal (hexDigit n) = some (UInt8.ofNat n) := by decide

theorem nibbles (b : UInt8) :
    UInt8.ofNat (b.toNat / 16) <<< 4 ||| UInt8.ofNat (b.toNat % 16) = b := by
  have h : ∀ n < 256, UInt8.ofNat (n / 16) <<< 4 ||| UInt8.ofNat (n % 16) = UInt8.ofNat n := by
    decide +kernel
  rw [h b.toNat b.toNat_lt, UInt8.ofNat_toNat]

theorem readHex_flatMap : ∀ {n : Nat} (bytes : { bytes : List UInt8 // bytes.length = n })
    (cs : List Char), readHex n (bytes.1.flatMap hexByte ++ cs) = some (bytes, cs)
  | 0, ⟨bytes, h⟩, cs => by
    obtain rfl := length_eq_zero_iff.mp h
    rfl
  | n + 1, ⟨bytes, h⟩, cs => by
    obtain ⟨b, bytes, rfl⟩ := exists_cons_of_length_eq_add_one h
    have hlt := b.toNat_lt
    have ih := readHex_flatMap ⟨bytes, Nat.succ.inj h⟩ cs
    simp only [flatMap_cons, hexByte, cons_append, nil_append, readHex,
      hexVal_hexDigit (b.toNat / 16) (by omega), hexVal_hexDigit (b.toNat % 16) (by omega), ih,
      Option.bind_eq_bind, Option.bind_some, nibbles]

theorem parse_display (p : StorePath) : parse p.display = .ok p := by
  have hne : p.name.toList ≠ [] := fun h =>
    (isSingleComponent_iff.mp p.single).1.nonempty (String.toList_inj.mp h)
  obtain ⟨c, cs, hcs⟩ := exists_cons_of_ne_nil hne
  have hname : String.ofList (c :: cs) = p.name := by rw [← hcs, String.ofList_toList]
  simp [parse, display, readHex_flatMap, hcs, hname]

theorem display_injective : Function.Injective display := by
  intro p q h
  have hp := parse_display p
  rw [h, parse_display] at hp
  exact (Except.ok.inj hp).symm

/-! ### The order of store paths -/

/-- What `sort_by` compares: the key, byte by byte, and then the name. -/
def sortKey (p : StorePath) : List Nat ×ₗ String :=
  toLex (p.hash.1.map UInt8.toNat, p.name)

theorem sortKey_injective : Function.Injective sortKey := by
  rintro ⟨⟨h, hl⟩, n, hn⟩ ⟨⟨h', hl'⟩, n', hn'⟩ heq
  obtain ⟨hhash, rfl⟩ := Prod.mk.inj (toLex.injective heq)
  obtain rfl := map_injective_iff.mpr (fun a b => UInt8.toNat_inj.mp) hhash
  rfl

def sort (paths : List StorePath) : List StorePath :=
  paths.mergeSort fun p q => p.sortKey ≤ q.sortKey

theorem sort_perm (paths : List StorePath) : (sort paths).Perm paths := mergeSort_perm _ _

theorem sort_pairwise (paths : List StorePath) :
    (sort paths).Pairwise fun p q => p.sortKey ≤ q.sortKey :=
  pairwise_mergeSort_key sortKey paths

/-- The sorted list says which paths there are and how often, and nothing else. -/
theorem sort_eq_iff {paths paths' : List StorePath} :
    sort paths = sort paths' ↔ paths.Perm paths' := by
  constructor
  · intro h
    exact (sort_perm paths).symm.trans (h ▸ sort_perm paths')
  · intro h
    exact List.Perm.eq_of_pairwise (fun p q _ _ hpq hqp => sortKey_injective (le_antisymm hpq hqp))
      (sort_pairwise paths) (sort_pairwise paths')
      ((sort_perm paths).trans (h.trans (sort_perm paths').symm))

end StorePath

end Dnet
