import Dnet.Check.Prims

/-!
# Verdicts

How a test case is decided (dnx-test/lib.rs): two sources are evaluated and compared with
`conv_eq`, two computed values with the equality of `PrimValue`. A pass should mean that the two
sides are the same data and that there is no function in them.

The equality never holds between closures and always between `lambda` markers
(`PrimValue.beq_iff`). So a pass says what it should exactly if the sides are not twins with a
marker in them (`pass_sound_iff`); such twins may have nothing in common (`markers_pass`).
-/

namespace Dnet

open Lib

variable {P : Type}

/-! ## Equality of values -/

namespace PrimValue

mutual

/-- `PartialEq`. -/
def beq : PrimValue P → PrimValue P → Bool
  | .int a, .int b => a == b
  | .float a, .float b => a == b
  | .str a, .str b => a == b
  | .path a, .path b => a == b
  | .bool a, .bool b => a == b
  | .null, .null => true
  | .list a, .list b => beqList a b
  | .attrSet a, .attrSet b => beqEntries a b
  | .lambda, .lambda => true
  | _, _ => false

def beqList : List (PrimValue P) → List (PrimValue P) → Bool
  | [], [] => true
  | a :: as, b :: bs => beq a b && beqList as bs
  | _, _ => false

def beqEntries : List (String × PrimValue P) → List (String × PrimValue P) → Bool
  | [], [] => true
  | (k, a) :: as, (l, b) :: bs => k == l && beq a b && beqEntries as bs
  | _, _ => false

end

mutual

/-- Does `p` hold of a function in the value? -/
def anyFunction (p : PrimValue P → Bool) : PrimValue P → Bool
  | .list vs => anyFunctionList p vs
  | .attrSet entries => anyFunctionEntries p entries
  | .closure e => p (.closure e)
  | .lambda => p .lambda
  | .int _ | .float _ | .str _ | .path _ | .bool _ | .null => false

def anyFunctionList (p : PrimValue P → Bool) : List (PrimValue P) → Bool
  | [] => false
  | v :: vs => anyFunction p v || anyFunctionList p vs

def anyFunctionEntries (p : PrimValue P → Bool) : List (String × PrimValue P) → Bool
  | [] => false
  | (_, v) :: es => anyFunction p v || anyFunctionEntries p es

end

def isClosure : PrimValue P → Bool
  | .closure _ => true
  | _ => false

def isMarker : PrimValue P → Bool
  | .lambda => true
  | _ => false

/-- A closure stands somewhere in the value. -/
def hasClosure (v : PrimValue P) : Bool := v.anyFunction isClosure

/-- The marker of an abstraction stands somewhere in the value. -/
def hasMarker (v : PrimValue P) : Bool := v.anyFunction isMarker

/-- A function stands somewhere in the value. -/
def hasFunction (v : PrimValue P) : Bool := v.anyFunction fun _ => true

mutual

/-- The same structure, with the same scalar at every position and no function. -/
def SameData : PrimValue P → PrimValue P → Prop
  | .int a, .int b => a = b
  | .float a, .float b => a = b
  | .str a, .str b => a = b
  | .path a, .path b => a = b
  | .bool a, .bool b => a = b
  | .null, .null => True
  | .list a, .list b => SameItems a b
  | .attrSet a, .attrSet b => SameEntries a b
  | _, _ => False

def SameItems : List (PrimValue P) → List (PrimValue P) → Prop
  | [], [] => True
  | a :: as, b :: bs => SameData a b ∧ SameItems as bs
  | _, _ => False

def SameEntries : List (String × PrimValue P) → List (String × PrimValue P) → Prop
  | [], [] => True
  | (k, a) :: as, (l, b) :: bs => k = l ∧ SameData a b ∧ SameEntries as bs
  | _, _ => False

end

/-- Two copies of one value that has a marker in it and no closure. -/
def MarkedTwins (v w : PrimValue P) : Prop := v = w ∧ v.hasMarker ∧ ¬ v.hasClosure

/-! ### What the equality says -/

mutual

theorem beq_iff : ∀ v w : PrimValue P, v.beq w = true ↔ v = w ∧ v.hasClosure = false
  | .list a, w => by
    cases w with
    | list b => rw [beq, list.injEq, hasClosure, anyFunction, beqList_iff a b]
    | _ => simp [beq]
  | .attrSet a, w => by
    cases w with
    | attrSet b => rw [beq, attrSet.injEq, hasClosure, anyFunction, beqEntries_iff a b]
    | _ => simp [beq]
  | .int _, w | .float _, w | .str _, w | .path _, w | .bool _, w | .null, w | .closure _, w
  | .lambda, w => by cases w <;> simp [beq, hasClosure, anyFunction, isClosure]

theorem beqList_iff : ∀ vs ws : List (PrimValue P),
    beqList vs ws = true ↔ vs = ws ∧ anyFunctionList isClosure vs = false
  | [], [] => by simp [beqList, anyFunctionList]
  | [], _ :: _ | _ :: _, [] => by simp [beqList]
  | v :: vs, w :: ws => by
    rw [beqList, Bool.and_eq_true, beq_iff v w, beqList_iff vs ws, List.cons.injEq,
      anyFunctionList, Bool.or_eq_false_iff, hasClosure]
    exact and_and_and_comm

theorem beqEntries_iff : ∀ vs ws : List (String × PrimValue P),
    beqEntries vs ws = true ↔ vs = ws ∧ anyFunctionEntries isClosure vs = false
  | [], [] => by simp [beqEntries, anyFunctionEntries]
  | [], _ :: _ | _ :: _, [] => by simp [beqEntries]
  | (k, v) :: vs, (l, w) :: ws => by
    rw [beqEntries, Bool.and_eq_true, Bool.and_eq_true, beq_iff v w, beqEntries_iff vs ws,
      List.cons.injEq, Prod.mk.injEq, anyFunctionEntries, Bool.or_eq_false_iff, hasClosure,
      beq_iff_eq]
    tauto

end

mutual

theorem sameData_iff : ∀ v w : PrimValue P, SameData v w ↔ v = w ∧ v.hasFunction = false
  | .list a, w => by
    cases w with
    | list b => rw [SameData, list.injEq, hasFunction, anyFunction, sameItems_iff a b]
    | _ => simp [SameData]
  | .attrSet a, w => by
    cases w with
    | attrSet b => rw [SameData, attrSet.injEq, hasFunction, anyFunction, sameEntries_iff a b]
    | _ => simp [SameData]
  | .int _, w | .float _, w | .str _, w | .path _, w | .bool _, w | .null, w | .closure _, w
  | .lambda, w => by cases w <;> simp [SameData, hasFunction, anyFunction]

theorem sameItems_iff : ∀ vs ws : List (PrimValue P),
    SameItems vs ws ↔ vs = ws ∧ anyFunctionList (fun _ => true) vs = false
  | [], [] => by simp [SameItems, anyFunctionList]
  | [], _ :: _ | _ :: _, [] => by simp [SameItems]
  | v :: vs, w :: ws => by
    rw [SameItems, sameData_iff v w, sameItems_iff vs ws, List.cons.injEq, anyFunctionList,
      Bool.or_eq_false_iff, hasFunction]
    exact and_and_and_comm

theorem sameEntries_iff : ∀ vs ws : List (String × PrimValue P),
    SameEntries vs ws ↔ vs = ws ∧ anyFunctionEntries (fun _ => true) vs = false
  | [], [] => by simp [SameEntries, anyFunctionEntries]
  | [], _ :: _ | _ :: _, [] => by simp [SameEntries]
  | (k, v) :: vs, (l, w) :: ws => by
    rw [SameEntries, sameData_iff v w, sameEntries_iff vs ws, List.cons.injEq, Prod.mk.injEq,
      anyFunctionEntries, Bool.or_eq_false_iff, hasFunction]
    tauto

end

mutual

theorem hasFunction_eq : ∀ v : PrimValue P, v.hasFunction = (v.hasClosure || v.hasMarker)
  | .list vs => anyFunctionList_eq vs
  | .attrSet es => anyFunctionEntries_eq es
  | .int _ | .float _ | .str _ | .path _ | .bool _ | .null | .closure _ | .lambda => rfl

theorem anyFunctionList_eq : ∀ vs : List (PrimValue P), anyFunctionList (fun _ => true) vs =
    (anyFunctionList isClosure vs || anyFunctionList isMarker vs)
  | [] => rfl
  | v :: vs => by
    have hv := hasFunction_eq v
    rw [hasFunction, hasClosure, hasMarker] at hv
    rw [anyFunctionList, anyFunctionList, anyFunctionList, hv, anyFunctionList_eq vs]
    ac_rfl

theorem anyFunctionEntries_eq : ∀ es : List (String × PrimValue P),
    anyFunctionEntries (fun _ => true) es =
      (anyFunctionEntries isClosure es || anyFunctionEntries isMarker es)
  | [] => rfl
  | (_, v) :: es => by
    have hv := hasFunction_eq v
    rw [hasFunction, hasClosure, hasMarker] at hv
    rw [anyFunctionEntries, anyFunctionEntries, anyFunctionEntries, hv, anyFunctionEntries_eq es]
    ac_rfl

end

end PrimValue

/-! ## Verdicts -/

namespace NixEvalResult

/-- `conv_eq`. -/
def convEq : NixEvalResult P → NixEvalResult P → Bool
  | .int a, .int b => a == b
  | .float a, .float b => a == b
  | .str a, .str b => a == b
  | .bool a, .bool b => a == b
  | .null, .null => true
  | .list a, .list b => PrimValue.beqList a b
  | .attrSet a, .attrSet b => PrimValue.beqEntries a b
  | _, _ => false

/-- The value a result stands for; a function and an error stand for none. -/
def asValue : NixEvalResult P → Option (PrimValue P)
  | .int i => some (.int i)
  | .float bits => some (.float bits)
  | .str s => some (.str s)
  | .bool b => some (.bool b)
  | .null => some .null
  | .list vs => some (.list vs)
  | .attrSet entries => some (.attrSet entries)
  | .lambda _ | .error _ => none

theorem convEq_iff (a b : NixEvalResult P) :
    a.convEq b = true ↔ ∃ v w, a.asValue = some v ∧ b.asValue = some w ∧ v.beq w = true := by
  cases a <;> cases b <;> simp [convEq, asValue, PrimValue.beq]

end NixEvalResult

/-- The verdict for one case. -/
inductive Outcome where
  | pass
  | fail (expected got : String)
  | error (message : String)
  deriving DecidableEq, Repr

/-- A case of a literal suite: where it stands, and the sources of its sides. -/
structure TestCase where
  path : String
  expr : String
  expected : String
  deriving DecidableEq, Repr

/-- A case of a computed suite: where it stands, and its sides. -/
structure ValueCase (P : Type) where
  path : String
  expr : PrimValue P
  expected : PrimValue P

section

variable (fmt : Formats)

def render : NixEvalResult P → String
  | .int i => toString i
  | .float bits => fmt.float bits
  | .str s => fmt.debug s
  | .bool b => toString b
  | .null => "null"
  | .list vs => "[ " ++ toString vs.length ++ " items ]"
  | .attrSet entries => "\x7b " ++ toString entries.length ++ " attrs \x7d"
  | .lambda _ => "<lambda>"
  | .error e => "<error: " ++ e.message fmt ++ ">"

def renderPv : PrimValue P → String
  | .int i => toString i
  | .float bits => fmt.float bits
  | .str s => fmt.debug s
  | .path p => p
  | .bool b => toString b
  | .null => "null"
  | .list vs => "[ " ++ toString vs.length ++ " items ]"
  | .attrSet entries => "\x7b " ++ toString entries.length ++ " attrs \x7d"
  | .closure _ | .lambda => "<lambda>"

def compareValueCase (c : ValueCase P) : Outcome :=
  if c.expr.beq c.expected then .pass
  else .fail (renderPv fmt c.expected) (renderPv fmt c.expr)

/-- The verdict from what the evaluation of the sides returned, with the interactions. -/
def verdict : Except NixEvalError (NixEvalResult P × Nat) →
    Except NixEvalError (NixEvalResult P × Nat) → Outcome × Nat
  | .ok (ev, ei), .ok (xv, xi) =>
    (if ev.convEq xv then .pass else .fail (render fmt xv) (render fmt ev), ei + xi)
  | .error e, _ => (.error ("expr: " ++ e.message fmt), 0)
  | _, .error e => (.error ("expected: " ++ e.message fmt), 0)

/-- Where the counters of the process stand when a side of a case is evaluated. The evaluation of
`expr` advances them before that of `expected`. -/
structure CaseCounters where
  expr : Counters := {}
  expected : Counters := {}
  deriving DecidableEq

/-- `eval_case`; `none` if the evaluation of a side does not return with the fuel. -/
def evalCase (rt : NixRuntime P) (ctrs : CaseCounters) (fuel : Nat) (files : Files) (c : TestCase) :
    Option (Outcome × Nat) :=
  match rt.evalCanonical ctrs.expr fuel files c.expr,
    rt.evalCanonical ctrs.expected fuel files c.expected with
  | some expr, some expected => some (verdict fmt expr expected)
  | _, _ => none

end

/-- The source evaluates to a value. -/
def NixRuntime.Yields (rt : NixRuntime P) (ctrs : Counters) (fuel : Nat) (files : Files)
    (src : String) (v : PrimValue P) : Prop :=
  ∃ r k, rt.evalCanonical ctrs fuel files src = .ok (r, k) ∧ r.asValue = some v

variable {rt : NixRuntime P} {ctrs : Counters}

theorem NixRuntime.Yields.unique {fuel : Nat} {files : Files} {src : String}
    {v w : PrimValue P} (hv : rt.Yields ctrs fuel files src v)
    (hw : rt.Yields ctrs fuel files src w) : v = w := by
  obtain ⟨r, k, hr, hv⟩ := hv
  obtain ⟨r', k', hr', hw⟩ := hw
  obtain ⟨rfl, -⟩ := Prod.mk.inj (Except.ok.inj (Option.some.inj (hr.symm.trans hr')))
  exact Option.some.inj (hv.symm.trans hw)

/-- Does the source evaluate to the value? -/
def NixRuntime.yields (rt : NixRuntime P) (ctrs : Counters) (fuel : Nat) (files : Files)
    (src : String) (v : PrimValue P) : Bool :=
  match rt.evalCanonical ctrs fuel files src with
  | some (.ok (r, _)) => r.asValue.any fun w => w.beq v
  | _ => false

theorem NixRuntime.yields_sound {fuel : Nat} {files : Files} {src : String}
    {v : PrimValue P} (h : rt.yields ctrs fuel files src v = true) :
    rt.Yields ctrs fuel files src v := by
  rw [NixRuntime.yields] at h
  split at h
  case h_2 => cases h
  case h_1 r k hr =>
    obtain ⟨w, hw, hwv⟩ := (Option.any_eq_true _ _).mp h
    obtain ⟨rfl, -⟩ := (PrimValue.beq_iff w v).mp hwv
    exact ⟨r, k, hr, hw⟩

/-! ## When a pass is sound -/

section

variable (fmt : Formats)

/-- A pass on values: the equality of trees also holds of twins with a marker. -/
theorem PrimValue.beq_sound_iff (v w : PrimValue P) :
    (v.beq w = true → v.SameData w) ↔ ¬ v.MarkedTwins w := by
  rw [PrimValue.beq_iff, PrimValue.sameData_iff, PrimValue.hasFunction_eq, PrimValue.MarkedTwins]
  cases v.hasClosure <;> cases v.hasMarker <;> simp

theorem compareValueCase_pass_iff (c : ValueCase P) :
    compareValueCase fmt c = .pass ↔ c.expr.beq c.expected = true := by
  rw [compareValueCase]
  split <;> simp [*]

theorem verdict_pass_iff (x y : Except NixEvalError (NixEvalResult P × Nat)) :
    (verdict fmt x y).1 = .pass ↔
      ∃ a i b j, x = .ok (a, i) ∧ y = .ok (b, j) ∧ a.convEq b = true := by
  cases x with
  | error e => simp [verdict]
  | ok p =>
    cases y with
    | error e => simp [verdict]
    | ok q =>
      obtain ⟨a, i⟩ := p
      obtain ⟨b, j⟩ := q
      simp only [verdict, Except.ok.injEq, Prod.mk.injEq]
      constructor
      · intro h
        split at h
        · exact ⟨a, i, b, j, ⟨rfl, rfl⟩, ⟨rfl, rfl⟩, ‹_›⟩
        · cases h
      · rintro ⟨_, _, _, _, ⟨rfl, rfl⟩, ⟨rfl, rfl⟩, h⟩
        rw [if_pos h]

theorem evalCase_pass_iff (rt : NixRuntime P) (ctrs : CaseCounters) (fuel : Nat) (files : Files)
    (c : TestCase) :
    (∃ k, evalCase fmt rt ctrs fuel files c = some (.pass, k)) ↔
      ∃ v w, rt.Yields ctrs.expr fuel files c.expr v ∧
        rt.Yields ctrs.expected fuel files c.expected w ∧ v.beq w = true := by
  constructor
  · rintro ⟨k, h⟩
    rw [evalCase] at h
    split at h
    case h_2 => cases h
    case h_1 x y hx hy =>
      have hpass : (verdict fmt x y).1 = .pass := by rw [Option.some.inj h]
      obtain ⟨a, i, b, j, rfl, rfl, hab⟩ := (verdict_pass_iff fmt x y).mp hpass
      obtain ⟨v, w, hv, hw, hvw⟩ := (a.convEq_iff b).mp hab
      exact ⟨v, w, ⟨a, i, hx, hv⟩, ⟨b, j, hy, hw⟩, hvw⟩
  · rintro ⟨v, w, ⟨a, i, hx, hv⟩, ⟨b, j, hy, hw⟩, hvw⟩
    have hab : a.convEq b = true := (a.convEq_iff b).mpr ⟨v, w, hv, hw, hvw⟩
    refine ⟨i + j, ?_⟩
    rw [evalCase, hx, hy]
    show some (verdict fmt (.ok (a, i)) (.ok (b, j))) = _
    rw [verdict, if_pos hab]

/-- A pass shows the same data without a function exactly if the sides are not twins with a marker
in them. -/
theorem pass_sound_iff :
    (∀ c : ValueCase P, (compareValueCase fmt c = .pass → c.expr.SameData c.expected) ↔
      ¬ c.expr.MarkedTwins c.expected) ∧
    ∀ (rt : NixRuntime P) (ctrs : CaseCounters) (fuel : Nat) (files : Files) (c : TestCase),
      (∀ k, evalCase fmt rt ctrs fuel files c = some (.pass, k) → ∃ v w,
        rt.Yields ctrs.expr fuel files c.expr v ∧
          rt.Yields ctrs.expected fuel files c.expected w ∧ v.SameData w) ↔
      ¬ ∃ v w, rt.Yields ctrs.expr fuel files c.expr v ∧
        rt.Yields ctrs.expected fuel files c.expected w ∧ v.MarkedTwins w := by
  refine ⟨fun c => ?_, fun rt ctrs fuel files c => ?_⟩
  · rw [compareValueCase_pass_iff, PrimValue.beq_sound_iff]
  · rw [← forall_exists_index (p := fun k => evalCase fmt rt ctrs fuel files c = some (.pass, k))
      (q := fun _ => _), evalCase_pass_iff]
    constructor
    · rintro sound ⟨v, w, hv, hw, twins⟩
      refine (PrimValue.beq_sound_iff v w).mp (fun hvw => ?_) twins
      obtain ⟨v', w', hv', hw', same⟩ := sound ⟨v, w, hv, hw, hvw⟩
      rwa [hv.unique hv', hw.unique hw']
    · rintro apart ⟨v, w, hv, hw, hvw⟩
      exact ⟨v, w, hv, hw,
        (PrimValue.beq_sound_iff v w).mpr (fun twins => apart ⟨v, w, hv, hw, twins⟩) hvw⟩

end

/-- No primitive but those of the model. -/
def PrimTable.bare : PrimTable Empty where
  entries := []
  apply := fun b _ => nomatch b
  toFloat := fun _ => 0

/-- A file system without files. -/
def Files.none : Files
  | .isDir _ => false
  | .readToString _ => .error "No such file or directory (os error 2)"
  | .canonicalize _ => Option.none

/-- A runtime that can parse the given sources. -/
def NixRuntime.parsing (sources : List (String × Nix)) : NixRuntime (NixPrim Empty) where
  host := ⟨fun src => ([], sources.lookup src), .ok "/", Option.none⟩
  prims := PrimTable.bare.ctx
  debug := true

/-- Two sets, one with the list `[ 1 ]`, one with the list `[ 2 ]`. -/
def listCase : TestCase := ⟨"lists", "\x7b x = [ 1 ]; \x7d", "\x7b x = [ 2 ]; \x7d"⟩

def listRuntime : NixRuntime (NixPrim Empty) := .parsing
  [(listCase.expr, .attrSet false [.attrpathValue [.ident "x"] (.list [.int (.ok 1)])]),
    (listCase.expected, .attrSet false [.attrpathValue [.ident "x"] (.list [.int (.ok 2)])])]

theorem listRuntime_yields :
    listRuntime.Yields {} 100 .none listCase.expr (.attrSet [("x", .lambda)]) ∧
      listRuntime.Yields {} 100 .none listCase.expected (.attrSet [("x", .lambda)]) :=
  ⟨NixRuntime.yields_sound (by decide +kernel), NixRuntime.yields_sound (by decide +kernel)⟩

/-- The two sets pass as equal, and neither is free of functions. -/
theorem markers_pass :
    (∃ k, evalCase ⟨id, fun _ => ""⟩ listRuntime {} 100 .none listCase = some (.pass, k)) ∧
      (¬ ∃ v w, listRuntime.Yields {} 100 .none listCase.expr v ∧
        listRuntime.Yields {} 100 .none listCase.expected w ∧ v.SameData w) ∧
      ∃ v, listRuntime.Yields {} 100 .none listCase.expr v ∧ v.hasFunction = true := by
  obtain ⟨hexpr, hexpected⟩ := listRuntime_yields
  refine ⟨(evalCase_pass_iff ..).mpr ⟨_, _, hexpr, hexpected, by decide⟩, ?_, _, hexpr, by decide⟩
  rintro ⟨v, w, hv, hw, same⟩
  rw [hv.unique hexpr, hw.unique hexpected, PrimValue.sameData_iff] at same
  exact absurd same.2 (by decide)

end Dnet
