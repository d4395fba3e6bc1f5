import Dnet.Check.Prims
import Mathlib.Data.String.Basic

/-!
# The units of strings

`stringLength` counts bytes and `substring` counts characters: they agree on a string exactly if
its characters are of one byte (`stringLaws_iff`). `replaceStrings` compares a pattern with as many
bytes of the text, and panics if these end inside a character (`replaceStringsApply_iff`).
-/

namespace Dnet

open String Lib

variable {P : Type} {s : String}

namespace NixPrim

def stringLengthApply : List (PrimValue P) → Except DnxError (PrimValue P)
  | [.str s] => .ok (.int s.utf8ByteSize)
  | _ => .error (.primError "stringLength: expected string")

def substringApply : List (PrimValue P) → Except DnxError (PrimValue P)
  | [.int start, .int len, .str s] =>
    let start := (max start 0).toNat
    let stop := min (start + (max len 0).toNat) s.toList.length
    .ok (.str (if s.toList.length ≤ start then "" else ofList ((s.toList.take stop).drop start)))
  | _ => .error (.primError "substring: expected (int, int, string)")

theorem substringApply_eq (i n : Nat) : substringApply [.int i, .int n, .str s] =
    .ok (.str (ofList ((s.toList.drop i).take n)) : PrimValue P) := by
  have hpart : (s.toList.take (min (i + n) s.toList.length)).drop i = (s.toList.drop i).take n := by
    rw [List.drop_take, List.take_eq_take_iff, List.length_drop]
    omega
  simp only [substringApply, Int.max_eq_left (Int.natCast_nonneg _), Int.toNat_natCast, hpart]
  split
  · next h => rw [List.drop_eq_nil_of_le h, List.take_nil, ofList_nil]
  · rfl

/-- Parts of a string have the length that was asked for, and join to the string. -/
structure StringLaws (P : Type) (s : String) : Prop where
  length : ∀ i n len : Nat, stringLengthApply [.str s] = .ok (.int len : PrimValue P) →
    (substringApply [.int i, .int n, .str s] >>= (stringLengthApply [·])) =
      .ok (.int (min n (len - i) : Nat) : PrimValue P)
  split : ∀ i len : Nat, i ≤ len → stringLengthApply [.str s] = .ok (.int len : PrimValue P) →
    ∃ t t', substringApply [.int 0, .int i, .str s] = .ok (.str t : PrimValue P) ∧
      substringApply [.int i, .int (len - i : Nat), .str s] = .ok (.str t' : PrimValue P) ∧
      t ++ t' = s

theorem utf8Len_of_ascii : ∀ {l : List Char}, (∀ c ∈ l, c.val ≤ 127) → utf8Len l = l.length
  | [], _ => rfl
  | c :: l, h => by
    obtain ⟨hc, hl⟩ := List.forall_mem_cons.mp h
    rw [utf8Len_cons, utf8Len_of_ascii hl, Char.utf8Size_eq_one_iff.mpr hc, List.length_cons]

theorem stringLengthApply_eq_ok {len : Nat} :
    stringLengthApply [.str s] = .ok (.int len : PrimValue P) ↔ utf8Len s.toList = len := by
  rw [← utf8ByteSize_ofList, ofList_toList]
  constructor
  · intro h
    injection h with h
    injection h with h
    exact Int.ofNat_inj.mp h
  · rintro rfl
    rfl

theorem substring_length {i n len : Nat} :
    (substringApply [.int i, .int n, .str s] >>= (stringLengthApply [·])) =
      .ok (.int len : PrimValue P) ↔ utf8Len ((s.toList.drop i).take n) = len := by
  rw [substringApply_eq]
  exact stringLengthApply_eq_ok.trans (by rw [toList_ofList])

theorem stringLaws_iff : StringLaws P s ↔ ∀ c ∈ s.toList, c.val ≤ 127 := by
  constructor
  · intro h c hc
    obtain ⟨l, l', hl⟩ := List.append_of_mem hc
    have hlen := substring_length.mp (h.length l.length 1 _ (stringLengthApply_eq_ok.mpr rfl))
    rw [hl, List.drop_left' rfl, List.take_succ_cons, List.take_zero, utf8Len_cons] at hlen
    refine Char.utf8Size_eq_one_iff.mp ?_
    have := c.utf8Size_pos
    omega
  · intro h
    refine ⟨fun i n len hlen => ?_, fun i len _ hlen => ?_⟩ <;>
      rw [stringLengthApply_eq_ok, utf8Len_of_ascii h] at hlen
    · have hpart : ∀ c ∈ (s.toList.drop i).take n, c.val ≤ 127 := fun c hc =>
        h c (List.mem_of_mem_drop (List.mem_of_mem_take hc))
      rw [substring_length, utf8Len_of_ascii hpart, List.length_take, List.length_drop, hlen]
    · refine ⟨_, _, substringApply_eq 0 i, substringApply_eq i _, ?_⟩
      rw [← ofList_append, List.drop_zero, List.take_of_length_le (l := s.toList.drop i)
        (by rw [List.length_drop, hlen]), List.take_append_drop, ofList_toList]

/-- The character `é` has two bytes. -/
theorem accent_not_stringLaws : ¬StringLaws Empty "é" := fun h => by
  have hlen := substring_length.mp (h.length 0 1 2 (stringLengthApply_eq_ok.mpr (by decide +kernel)))
  exact absurd hlen (by decide +kernel)

/-! ### Replacing -/

/-- `&s[p..p + n]`, with the characters of `s` from `p` on. It panics (`none`) if `p + n` is
inside a character. -/
def slice : List Char → Nat → Option (List Char)
  | _, 0 => some []
  | [], _ + 1 => none
  | c :: rest, n => if c.utf8Size ≤ n then (slice rest (n - c.utf8Size)).map (c :: ·) else none

/-- A pattern with its replacement. -/
abbrev Rule := List Char × List Char

/-- The `for` loop over the patterns, at a position `p` that is given by the characters from `p`
on. -/
def firstMatch (rest : List Char) : List Rule → Option (Option Rule)
  | [] => some none
  | rule :: rules =>
    if utf8Len rule.1 ≤ utf8Len rest then do
      if (← slice rest (utf8Len rule.1)) = rule.1 then return rule else firstMatch rest rules
    else firstMatch rest rules

/-- The `while` loop. At the end of the text just an empty pattern matches. -/
def replaceLoop (rules : List Rule) : List Char → List Char → Option (List Char)
  | [], out => do return out ++ ((← firstMatch [] rules).elim [] (·.2))
  | c :: rest, out => do
    match ← firstMatch (c :: rest) rules with
    | some ([], rep) => replaceLoop rules rest (out ++ rep ++ [c])
    | some (_ :: pat, rep) => replaceLoop rules (rest.drop pat.length) (out ++ rep)
    | none => replaceLoop rules rest (out ++ [c])
termination_by rest => rest.length
decreasing_by all_goals grind

/-- The patterns with their replacements, and the text. -/
def replaceArgs : List (PrimValue P) → Except DnxError (List Rule × List Char)
  | [.list pats, .list reps, .str s] => do
    if pats.length ≠ reps.length then
      .error (.primError "replaceStrings: 'from' and 'to' must have equal length")
    let pats ← pats.mapM (chars "replaceStrings: 'from' must hold strings")
    let reps ← reps.mapM (chars "replaceStrings: 'to' must hold strings")
    return (pats.zip reps, s.toList)
  | [.list _, .list _, _] => .error (.primError "replaceStrings: third arg must be string")
  | [_, _, _] => .error (.primError "replaceStrings: first two args must be lists")
  | _ => .error (.primError "replaceStrings: arity")
where
  chars (msg : String) : PrimValue P → Except DnxError (List Char)
    | .str s => .ok s.toList
    | _ => .error (.primError msg)

/-- It does not return if it panics. -/
def replaceStringsApply (args : List (PrimValue P)) : Call DnxError (PrimValue P) := do
  let (rules, text) ← (some (replaceArgs args) : Call _ _)
  return .str (ofList (← Call.ofOption (replaceLoop rules text [])))

/-- Replacing from the left: the positions at which it stops, each with the text that is written
there. -/
def scan (rules : List Rule) : List Char → List (List Char × List Char)
  | [] => [([], (rules.find? (·.1.isPrefixOf [])).elim [] (·.2))]
  | c :: rest => match rules.find? (·.1.isPrefixOf (c :: rest)) with
    | some ([], rep) => (c :: rest, rep ++ [c]) :: scan rules rest
    | some (_ :: pat, rep) => (c :: rest, rep) :: scan rules (rest.drop pat.length)
    | none => (c :: rest, [c]) :: scan rules rest
termination_by rest => rest.length
decreasing_by all_goals grind

/-- The end of a pattern at this position is not inside a character, for the patterns up to the
first that matches. -/
def Aligned (rules : List Rule) (rest : List Char) : Prop :=
  ∀ rule ∈ rules.takeWhile (!·.1.isPrefixOf rest), utf8Len rule.1 ≤ utf8Len rest →
    ∃ part, part <+: rest ∧ utf8Len part = utf8Len rule.1

theorem slice_eq_some : ∀ {rest part : List Char} {n : Nat},
    slice rest n = some part ↔ part <+: rest ∧ utf8Len part = n
  | rest, part, 0 => by
    rw [slice, utf8Len_eq_zero, Option.some_inj, eq_comm]
    exact ⟨fun h => ⟨h ▸ List.nil_prefix, h⟩, And.right⟩
  | [], part, n + 1 => by
    simp only [slice, List.prefix_nil, reduceCtorEq, false_iff, not_and]
    rintro rfl
    exact nofun
  | c :: rest, [], n + 1 => by
    simp [slice]
  | c :: rest, d :: part, n + 1 => by
    simp only [slice, Option.ite_none_right_eq_some, Option.map_eq_some_iff, slice_eq_some,
      List.cons_prefix_cons, utf8Len_cons]
    constructor
    · rintro ⟨hle, _, ⟨hp, hlen⟩, ⟨⟩⟩
      exact ⟨⟨rfl, hp⟩, by omega⟩
    · rintro ⟨⟨rfl, hp⟩, hlen⟩
      exact ⟨by omega, part, ⟨hp, by omega⟩, rfl⟩

theorem firstMatch_eq_some {rest : List Char} {r : Option Rule} : ∀ {rules : List Rule},
    firstMatch rest rules = some r ↔ Aligned rules rest ∧ r = rules.find? (·.1.isPrefixOf rest)
  | [] => by simp [firstMatch, Aligned, eq_comm]
  | rule :: rules => by
    cases hb : rule.1.isPrefixOf rest with
    | true =>
      obtain ⟨l, rfl⟩ := List.isPrefixOf_iff_prefix.mp hb
      have hs := slice_eq_some.mpr ⟨List.prefix_append rule.1 l, rfl⟩
      simpa [firstMatch, Aligned, hb, hs] using eq_comm
    | false =>
      have ih := @firstMatch_eq_some rest r rules
      simp only [firstMatch, List.find?_cons, Aligned, List.takeWhile_cons, hb, Bool.not_false,
        if_true, List.forall_mem_cons, and_assoc] at ih ⊢
      rw [← ih]
      by_cases hle : utf8Len rule.1 ≤ utf8Len rest
      · simp only [hle, if_true, forall_const, Option.bind_eq_bind, Option.bind_eq_some_iff,
          slice_eq_some, ← exists_and_right]
        refine exists_congr fun part => and_congr_right fun hpart => ?_
        rw [if_neg]
        rintro rfl
        rw [List.isPrefixOf_iff_prefix.mpr hpart.1] at hb
        cases hb
      · simp [hle]

theorem replaceLoop_eq_some (rules : List Rule) (rest out r : List Char) :
    replaceLoop rules rest out = some r ↔ (∀ step ∈ scan rules rest, Aligned rules step.1) ∧
      r = out ++ (scan rules rest).flatMap (·.2) := by
  fun_induction scan rules rest generalizing out with
  | case1 =>
    rw [replaceLoop, Option.bind_eq_bind, Option.bind_eq_some_iff]
    simp [firstMatch_eq_some, and_assoc, eq_comm (b := r)]
  | case2 c rest rep hfind ih | case3 c rest _ pat rep hfind ih | case4 c rest hfind ih =>
    rw [replaceLoop, Option.bind_eq_bind, Option.bind_eq_some_iff]
    simp [firstMatch_eq_some, hfind, ih, and_assoc]

theorem mapM_chars (msg : String) (l : List String) :
    l.mapM (replaceArgs.chars msg ∘ (.str : String → PrimValue P)) = .ok (l.map toList) :=
  List.mapM_pure

/-- The patterns `pats` with the replacements `reps`. -/
def rulesOf (pats reps : List String) : List Rule := (pats.map toList).zip (reps.map toList)

theorem replaceStringsApply_eq {pats reps : List String} (h : pats.length = reps.length) :
    replaceStringsApply [.list (pats.map .str), .list (reps.map .str), (.str s : PrimValue P)] =
      Call.ofOption (replaceLoop (rulesOf pats reps) s.toList []) >>= fun out =>
        Call.ok (.str (ofList out)) := by
  have hargs : replaceArgs [.list (pats.map .str), .list (reps.map .str), (.str s : PrimValue P)] =
      .ok (rulesOf pats reps, s.toList) := by
    simp [replaceArgs, h, mapM_chars, rulesOf]
    rfl
  rw [replaceStringsApply, hargs]
  rfl

/-- `replaceStrings` returns what replacing from the left gives just if no comparison ends inside
a character; else it panics. -/
theorem replaceStringsApply_iff {pats reps : List String} (h : pats.length = reps.length) :
    replaceStringsApply [.list (pats.map .str), .list (reps.map .str), .str s] =
        Call.ok (.str (ofList ((scan (rulesOf pats reps) s.toList).flatMap (·.2))) : PrimValue P) ↔
      ∀ step ∈ scan (rulesOf pats reps) s.toList, Aligned (rulesOf pats reps) step.1 := by
  rw [replaceStringsApply_eq h, Call.bind_eq_ok]
  simp only [Call.ofOption_eq_ok, replaceLoop_eq_some]
  exact ⟨fun ⟨_, h, _⟩ => h.1, fun h => ⟨_, ⟨h, rfl⟩, rfl⟩⟩

/-- The texts `ab` and `é` have two bytes each. -/
theorem replaceStringsApply_accent :
    replaceStringsApply [.list [.str "ab", .str "é"], .list [.str "x", .str "yy"], .str "éabc"] =
      Call.ok (.str "yyxc" : PrimValue Empty) := by
  have hlen : ["ab", "é"].length = ["x", "yy"].length := rfl
  have hrules : rulesOf ["ab", "é"] ["x", "yy"] =
      [(['a', 'b'], ['x']), (['é'], ['y', 'y'])] := by simp [rulesOf]
  have hscan : scan [(['a', 'b'], ['x']), (['é'], ['y', 'y'])] "éabc".toList =
      [(['é', 'a', 'b', 'c'], ['y', 'y']), (['a', 'b', 'c'], ['x']), (['c'], ['c']), ([], [])] := by
    simp [scan, List.isPrefixOf]
  have haligned : ∀ step ∈ scan [(['a', 'b'], ['x']), (['é'], ['y', 'y'])] "éabc".toList,
      Aligned [(['a', 'b'], ['x']), (['é'], ['y', 'y'])] step.1 := by
    rw [hscan]
    simp only [List.forall_mem_cons]
    refine ⟨?_, by simp [Aligned, List.takeWhile], ?_, ?_, by simp⟩
    · simpa [Aligned, List.takeWhile, List.isPrefixOf] using fun _ => ⟨['é'], by simp, rfl⟩
    · have hshort : utf8Len ['c'] < utf8Len ['a', 'b'] ∧ utf8Len ['c'] < utf8Len ['é'] := by decide
      rintro rule hrule hle
      rcases List.mem_pair.mp (List.takeWhile_subset _ hrule) with rfl | rfl
      · exact absurd hle hshort.1.not_ge
      · exact absurd hle hshort.2.not_ge
    · simp [Aligned, List.takeWhile, List.isPrefixOf]
  have h := (replaceStringsApply_iff (P := Empty) (s := "éabc") hlen).mpr (hrules ▸ haligned)
  rw [hrules, hscan] at h
  exact h

/-- The end of the pattern `a` is inside the character `é`. -/
theorem replaceStringsApply_panics :
    replaceStringsApply [.list [.str "a"], .list [.str "b"], .str "é"] =
      (Call.pending : Call DnxError (PrimValue Empty)) := by
  have hlen : ["a"].length = ["b"].length := rfl
  refine (replaceStringsApply_eq hlen).trans ?_
  simp [replaceLoop, firstMatch, rulesOf]
  rfl

end NixPrim

end Dnet
