import Mathlib.Data.List.Induction
import Mathlib.Data.List.Sort

/-!
# Ordered maps

A finite map as a sorted association list. The order is a field of the map, so no operation has
to assume that a key occurs once.
-/

namespace Dnet.Lib

open List

/-- A finite map from `κ` to `ν`; `entries` lists it by increasing key. -/
structure OrdMap (κ ν : Type) [LinearOrder κ] where
  entries : List (κ × ν)
  sorted : entries.Pairwise (fun a b => a.1 < b.1)

namespace OrdMap

variable {κ ν : Type} [LinearOrder κ]

/-! ## Insertion into a sorted list -/

/-- Put `v` at `k`, replacing what stood there. -/
def insertList (k : κ) (v : ν) : List (κ × ν) → List (κ × ν)
  | [] => [(k, v)]
  | e :: es =>
    if k < e.1 then (k, v) :: e :: es
    else if k = e.1 then (k, v) :: es
    else e :: insertList k v es

section

variable {k : κ} {v : ν} {e d : κ × ν} {m m' : OrdMap κ ν}

theorem mem_insertList : ∀ {es : List (κ × ν)}, es.Pairwise (fun a b => a.1 < b.1) →
      (e ∈ insertList k v es ↔ e = (k, v) ∨ (e ∈ es ∧ e.1 ≠ k))
  | [], _ => by simp [insertList]
  | d :: es, hs => by
    obtain ⟨hd, hes⟩ := pairwise_cons.mp hs
    unfold insertList
    split
    · next hlt =>
      -- every key of the list is above `k`
      have hne : ∀ x ∈ d :: es, x.1 ≠ k :=
        forall_mem_cons.mpr ⟨hlt.ne', fun x hx => (hlt.trans (hd x hx)).ne'⟩
      rw [mem_cons]
      exact or_congr_right ⟨fun h => ⟨h, hne e h⟩, And.left⟩
    · split
      · next heq =>
        subst heq
        rw [mem_cons, mem_cons]
        refine or_congr_right ⟨fun h => ⟨.inr h, (hd e h).ne'⟩, fun ⟨h, hk⟩ => ?_⟩
        exact h.resolve_left fun he => hk (congrArg Prod.fst he)
      · next heq =>
        have hed : e = d ∧ e.1 ≠ k ↔ e = d := and_iff_left_of_imp fun he => he ▸ Ne.symm heq
        rw [mem_cons, mem_cons, mem_insertList hes, or_and_right, hed, or_left_comm]

theorem insertList_sorted : ∀ {es : List (κ × ν)}, es.Pairwise (fun a b => a.1 < b.1) →
      (insertList k v es).Pairwise (fun a b => a.1 < b.1)
  | [], _ => by simp [insertList]
  | d :: es, hs => by
    obtain ⟨hd, hes⟩ := pairwise_cons.mp hs
    unfold insertList
    split
    · next hlt =>
      exact pairwise_cons.mpr ⟨forall_mem_cons.mpr ⟨hlt, fun x hx => hlt.trans (hd x hx)⟩, hs⟩
    · next hlt =>
      split
      · next heq => exact pairwise_cons.mpr ⟨fun x hx => heq ▸ hd x hx, hes⟩
      · next heq =>
        refine pairwise_cons.mpr ⟨fun x hx => ?_, insertList_sorted hes⟩
        rcases (mem_insertList hes).mp hx with rfl | ⟨hx, -⟩
        · exact lt_of_le_of_ne (not_lt.mp hlt) (fun h => heq h.symm)
        · exact hd x hx

/-! ## The operations -/

def empty : OrdMap κ ν := ⟨[], List.Pairwise.nil⟩

def isEmpty (m : OrdMap κ ν) : Bool := m.entries.isEmpty

def insert (m : OrdMap κ ν) (k : κ) (v : ν) : OrdMap κ ν :=
  ⟨insertList k v m.entries, insertList_sorted m.sorted⟩

/-- The value of a key. -/
def get? (m : OrdMap κ ν) (k : κ) : Option ν :=
  (m.entries.find? fun e => e.1 = k).map Prod.snd

/-- Remove the entry of the least key. -/
def popFirst (m : OrdMap κ ν) : Option ((κ × ν) × OrdMap κ ν) :=
  match m with
  | ⟨[], _⟩ => none
  | ⟨e :: es, h⟩ => some (e, ⟨es, (pairwise_cons.mp h).2⟩)

instance : Membership (κ × ν) (OrdMap κ ν) := ⟨fun m e => e ∈ m.entries⟩

@[simp] theorem not_mem_empty : e ∉ (empty : OrdMap κ ν) := not_mem_nil

theorem mem_insert : e ∈ m.insert k v ↔ e = (k, v) ∨ (e ∈ m ∧ e.1 ≠ k) :=
  mem_insertList m.sorted

theorem mem_insert_self : (k, v) ∈ m.insert k v :=
  mem_insert.mpr (.inl rfl)

theorem eq_of_key_eq {w : ν} (hv : (k, v) ∈ m) (hw : (k, w) ∈ m) : v = w := by
  have hnodup : (m.entries.map Prod.fst).Nodup := pairwise_map.mpr (m.sorted.imp ne_of_lt)
  exact congrArg Prod.snd (inj_on_of_nodup_map hnodup hv hw rfl)

theorem eq_empty_of_popFirst (h : m.popFirst = none) : m = empty := by
  rcases m with ⟨_ | ⟨d, es⟩, hs⟩
  · rfl
  · cases h

theorem popFirst_eq_none (h : m.popFirst = none) (e : κ × ν) : e ∉ m :=
  eq_empty_of_popFirst h ▸ not_mem_empty

theorem isEmpty_iff : m.isEmpty = true ↔ m.popFirst = none := by
  rcases m with ⟨_ | ⟨d, es⟩, hs⟩ <;> simp [isEmpty, popFirst]

theorem isEmpty_iff_forall : m.isEmpty = true ↔ ∀ e, e ∉ m :=
  List.isEmpty_iff.trans List.eq_nil_iff_forall_not_mem

@[simp] theorem isEmpty_insert : (m.insert k v).isEmpty = false :=
  Bool.eq_false_iff.mpr fun h => isEmpty_iff_forall.mp h _ mem_insert_self

theorem entries_of_popFirst (h : m.popFirst = some (d, m')) : m.entries = d :: m'.entries := by
  rcases m with ⟨_ | ⟨c, es⟩, hs⟩
  · exact absurd h.symm (Option.some_ne_none _)
  · obtain ⟨rfl, rfl⟩ := Prod.mk.inj (Option.some.inj h)
    rfl

theorem mem_of_popFirst (h : m.popFirst = some (d, m')) : e ∈ m ↔ e = d ∨ e ∈ m' := by
  show e ∈ m.entries ↔ _
  rw [entries_of_popFirst h]
  exact mem_cons

theorem not_key_of_popFirst (h : m.popFirst = some (d, m')) : (d.1, v) ∉ m' := by
  have hs := m.sorted
  rw [entries_of_popFirst h] at hs
  exact fun hm => lt_irrefl _ ((pairwise_cons.mp hs).1 (d.1, v) hm)

/-! ## Insertion of several entries -/

/-- Insert the entries from left to right. -/
def insertAll (m : OrdMap κ ν) (l : List (κ × ν)) : OrdMap κ ν :=
  l.foldl (fun m e => m.insert e.1 e.2) m

theorem insertAll_append (m : OrdMap κ ν) (l l' : List (κ × ν)) :
    m.insertAll (l ++ l') = (m.insertAll l).insertAll l' := foldl_append

theorem mem_of_mem_insertAll : ∀ {l : List (κ × ν)} {m : OrdMap κ ν},
    e ∈ m.insertAll l → e ∈ m ∨ e ∈ l
  | [], _, h => .inl h
  | d :: l, m, h => by
    rcases mem_of_mem_insertAll (l := l) h with h | h
    · rcases mem_insert.mp h with rfl | ⟨h, -⟩
      · exact .inr mem_cons_self
      · exact .inl h
    · exact .inr (mem_cons_of_mem d h)

theorem mem_insertAll_of_mem : ∀ {l : List (κ × ν)} {m : OrdMap κ ν}, e ∈ m →
    e.1 ∉ l.map Prod.fst → e ∈ m.insertAll l
  | [], _, h, _ => h
  | d :: l, m, h, hk => by
    simp only [map_cons, mem_cons, not_or] at hk
    exact mem_insertAll_of_mem (l := l) (mem_insert.mpr (.inr ⟨h, hk.1⟩)) hk.2

theorem mem_insertAll_of_nodup : ∀ {l : List (κ × ν)} {m : OrdMap κ ν},
    (l.map Prod.fst).Nodup → e ∈ l → e ∈ m.insertAll l
  | d :: l, m, hl, he => by
    obtain ⟨hd, hl⟩ := nodup_cons.mp hl
    rcases mem_cons.mp he with rfl | he
    · exact mem_insertAll_of_mem (l := l) mem_insert_self hd
    · exact mem_insertAll_of_nodup (l := l) hl he

/-- After insertions into an empty map, a key has the value of its last entry. -/
theorem mem_insertAll_empty {l : List (κ × ν)} : (k, v) ∈ (empty : OrdMap κ ν).insertAll l ↔
      ∃ before after, l = before ++ (k, v) :: after ∧ k ∉ after.map Prod.fst := by
  constructor
  · intro h
    induction l using reverseRecOn with
    | nil => exact absurd h not_mem_empty
    | append_singleton l e ih =>
      rw [insertAll_append] at h
      rcases mem_insert.mp h with he | ⟨h, hk⟩
      · exact ⟨l, [], by rw [he], not_mem_nil⟩
      · obtain ⟨before, after, rfl, hafter⟩ := ih h
        refine ⟨before, after ++ [e], by rw [append_assoc, cons_append], ?_⟩
        rw [map_append, mem_append, not_or]
        exact ⟨hafter, fun hmem => hk (mem_singleton.mp hmem)⟩
  · rintro ⟨before, after, rfl, hafter⟩
    rw [insertAll_append]
    exact mem_insertAll_of_mem (l := after) mem_insert_self hafter

theorem insertList_append : ∀ {es : List (κ × ν)}, (∀ e ∈ es, e.1 < k) →
    insertList k v es = es ++ [(k, v)]
  | [], _ => rfl
  | e :: es, h => by
    have hlt := h e mem_cons_self
    rw [insertList, if_neg hlt.not_gt, if_neg hlt.ne',
      insertList_append fun e he => h e (mem_cons_of_mem _ he), cons_append]

theorem entries_insertAll : ∀ {l : List (κ × ν)} {m : OrdMap κ ν},
    (m.entries ++ l).Pairwise (fun a b => a.1 < b.1) → (m.insertAll l).entries = m.entries ++ l
  | [], m, _ => (append_nil m.entries).symm
  | e :: l, m, h => by
    have hlast : (m.insert e.1 e.2).entries = m.entries ++ [e] :=
      insertList_append fun d hd => (pairwise_append.mp h).2.2 d hd e mem_cons_self
    have hl : ((m.insert e.1 e.2).entries ++ l).Pairwise (fun a b => a.1 < b.1) := by
      rwa [hlast, append_assoc]
    show ((m.insert e.1 e.2).insertAll l).entries = m.entries ++ e :: l
    rw [entries_insertAll hl, hlast, append_assoc, singleton_append]

theorem eq_of_entries_eq : ∀ {m m' : OrdMap κ ν}, m.entries = m'.entries → m = m'
  | ⟨_, _⟩, ⟨_, _⟩, rfl => rfl

/-- If every index stands for one entry of a list and every entry for an index, then the map
of the list has one entry for every index exactly if the keys of the list differ. -/
theorem existsUnique_insertAll_iff {ι : Type} {P : ι → Prop} {R : ι → κ × ν → Prop}
    {l : List (κ × ν)} (hl : l.Nodup) (hone : ∀ i, P i → ∃! e, e ∈ l ∧ R i e)
    (hall : ∀ e ∈ l, ∃ i, P i ∧ R i e) :
    (∀ i, P i → ∃! e, e ∈ (empty : OrdMap κ ν).insertAll l ∧ R i e) ↔ (l.map Prod.fst).Nodup := by
  have hsub : ∀ e, e ∈ (empty : OrdMap κ ν).insertAll l → e ∈ l := fun e he =>
    (mem_of_mem_insertAll he).resolve_left not_mem_empty
  constructor
  · intro h
    -- every entry is there, and a map has one entry for a key
    have hmem : ∀ e ∈ l, e ∈ (empty : OrdMap κ ν).insertAll l := by
      intro e he
      obtain ⟨i, hi, hie⟩ := hall e he
      obtain ⟨e', ⟨he', hie'⟩, -⟩ := h i hi
      rwa [(hone i hi).unique ⟨he, hie⟩ ⟨hsub e' he', hie'⟩]
    refine List.Nodup.map_on ?_ hl
    rintro ⟨k, v⟩ he ⟨k', w⟩ he' (rfl : k = k')
    rw [eq_of_key_eq (hmem _ he) (hmem _ he')]
  · intro h i hi
    obtain ⟨e, ⟨he, hie⟩, huniq⟩ := hone i hi
    exact ⟨e, ⟨mem_insertAll_of_nodup h he, hie⟩, fun e' he' => huniq e' ⟨hsub e' he'.1, he'.2⟩⟩

end

end OrdMap

end Dnet.Lib
