import Dnet.Front.Nix

/-!
# The inputs of a flake

dnx-flake/flake.rs reads the inputs off the syntax tree of `flake.nix`, without evaluating it. It
looks at the first entry `inputs = …;` of the file only: what a dotted path, a second entry or
`inherit` declares is dropped without an error (`dottedInput_dropped`).
-/

namespace Dnet

open Lib List

inductive FlakeError where
  | io (s : String)
  | parse (s : String)
  | notAFlake (s : String)
  deriving DecidableEq, Repr

structure FlakeInput where
  name : String
  url : String
  deriving DecidableEq, Repr

namespace Flake

/-- The text of a string without interpolations. -/
def literalParts : List StrPart → Option String
  | [] => some ""
  | .literal l :: parts => (literalParts parts).map (l ++ ·)
  | .interpolation _ :: _ => none

def attrpathSegments (attrs : List NixAttr) : Option (List String) :=
  attrs.mapM fun
    | .ident x => some x
    | .str parts => literalParts parts
    | .dynamic _ => none

def findEntry (entries : List NixEntry) (key : String) : Option Nix :=
  entries.findSome? fun
    | .attrpathValue attrs value => if attrpathSegments attrs = some [key] then some value else none
    | .inherit _ _ => none

/-- One round of `attrset_fields`. -/
def attrsetField : NixEntry → Except FlakeError (String × Nix)
  | .attrpathValue attrs value =>
    match attrpathSegments attrs with
    | none => .error (.parse "dynamic attr key in inputs")
    | some [name] => .ok (name, value)
    | some _ => .error (.notAFlake "multi-segment attrpath in inputs")
  | .inherit _ _ => .error (.parse "`inherit` in inputs is unsupported")

def attrsetFields (entries : List NixEntry) : Except FlakeError (List (String × Nix)) :=
  entries.mapM attrsetField

def stringLiteral : Nix → Except FlakeError (Option String)
  | .str parts =>
    match literalParts parts with
    | some s => .ok (some s)
    | none => .error (.parse "dynamic (`$\x7b...\x7d`) input url")
  | _ => .ok none

/-- A url with a scheme is not a path. -/
def isLocalPath (url : String) : Bool :=
  match url.toList.span (· ≠ ':') with
  | (_, []) => true
  | (scheme, _) => scheme.isEmpty ||
    !scheme.all fun c => c.isAlphanum || c == '+' || c == '-' || c == '.'

def inputUrl (name : String) : Nix → Except FlakeError String
  | .attrSet _ entries => do
    let fields ← attrsetFields entries
    let some url := fields.lookup "url"
      | .error (.notAFlake ("input `" ++ name ++ "` has no `url`"))
    let some url ← stringLiteral url
      | .error (.notAFlake ("input `" ++ name ++ "` url is not a string"))
    if isLocalPath url then return url
    else .error (.notAFlake ("input `" ++ name ++ "` url `" ++ url ++ "` is not a local path"))
  | _ => .error (.notAFlake ("input `" ++ name ++ "` is not an attribute set"))

/-- `Flake::inputs`, for the entries of the file. -/
def inputs (top : List NixEntry) : Except FlakeError (List FlakeInput) :=
  match findEntry top "inputs" with
  | none => .ok []
  | some (.attrSet _ entries) => do
    let found ← (← attrsetFields entries).mapM fun (name, value) => do
      return ⟨name, ← inputUrl name value⟩
    return found.mergeSort fun a b => a.name ≤ b.name
  | some _ => .error (.notAFlake "`inputs` is not an attribute set")

/-! ## What a file declares -/

/-- The entry binds an attribute path that starts with `n`. -/
def Binds (n : String) : NixEntry → Prop
  | .attrpathValue attrs _ => ∃ rest, attrpathSegments attrs = some (n :: rest)
  | .inherit _ attrs => ∃ names, attrpathSegments attrs = some names ∧ n ∈ names

/-- The file binds an attribute path that starts with `inputs.n`. -/
def BindsInput (top : List NixEntry) (n : String) : Prop :=
  ∃ attrs value, .attrpathValue attrs value ∈ top ∧
    ((∃ rest, attrpathSegments attrs = some ("inputs" :: n :: rest)) ∨
      attrpathSegments attrs = some ["inputs"] ∧
        ∃ isRec entries, value = .attrSet isRec entries ∧ ∃ e ∈ entries, Binds n e)

/-- The file gives `inputs` by `inherit` or as something that is not written as a set. -/
def OtherInputs (top : List NixEntry) : Prop :=
  (∃ source attrs, .inherit source attrs ∈ top ∧ Binds "inputs" (.inherit source attrs)) ∨
    ∃ attrs value, .attrpathValue attrs value ∈ top ∧ attrpathSegments attrs = some ["inputs"] ∧
      ∀ isRec entries, value ≠ .attrSet isRec entries

/-- The first `inputs` of the file is a set that has the name. -/
def FirstBinds (top : List NixEntry) (n : String) : Prop :=
  ∃ isRec entries, findEntry top "inputs" = some (.attrSet isRec entries) ∧ ∃ e ∈ entries, Binds n e

/-- The inputs are those that the file declares, and it declares none in another way. -/
def Exact (top : List NixEntry) (declared : List FlakeInput) : Prop :=
  (∀ n, n ∈ declared.map FlakeInput.name ↔ BindsInput top n) ∧ ¬OtherInputs top

theorem FirstBinds.bindsInput {top : List NixEntry} {n : String} (h : FirstBinds top n) :
    BindsInput top n := by
  obtain ⟨isRec, entries, hfind, hn⟩ := h
  obtain ⟨e, he, hfound⟩ := exists_of_findSome?_eq_some hfind
  match e, hfound with
  | .attrpathValue attrs value, hfound =>
    obtain ⟨hsegs, hvalue⟩ := Option.ite_none_right_eq_some.mp hfound
    cases hvalue
    exact ⟨attrs, _, he, .inr ⟨hsegs, isRec, entries, rfl, hn⟩⟩

theorem binds_of_attrsetField {e : NixEntry} {field : String × Nix}
    (h : attrsetField e = .ok field) (n : String) : Binds n e ↔ n = field.1 := by
  cases e with
  | inherit _ _ => cases h
  | attrpathValue attrs value =>
    simp only [attrsetField] at h
    split at h
    · cases h
    · next hsegs =>
      cases h
      simp [Binds, hsegs, eq_comm]
    · cases h

theorem mem_attrsetFields {entries : List NixEntry} {fields : List (String × Nix)}
    (h : attrsetFields entries = .ok fields) (n : String) :
    n ∈ fields.map Prod.fst ↔ ∃ e ∈ entries, Binds n e := by
  have hfields := mapM_eq_ok.mp h
  clear h
  induction hfields with
  | nil => simp
  | cons hfield _ ih => simp [binds_of_attrsetField hfield, ← ih]

/-- The names that are returned are those of the first `inputs` of the file. -/
theorem mem_inputs {top : List NixEntry} {declared : List FlakeInput}
    (h : inputs top = .ok declared) (n : String) :
    n ∈ declared.map FlakeInput.name ↔ FirstBinds top n := by
  unfold inputs at h
  split at h
  · next hfind =>
    cases h
    simp [FirstBinds, hfind]
  · next isRec entries hfind =>
    obtain ⟨fields, hfields, h⟩ := bind_eq_ok.mp h
    obtain ⟨found, hfound, h⟩ := bind_eq_ok.mp h
    cases h
    have hnames : fields.map Prod.fst = found.map FlakeInput.name := by
      rw [← forall₂_eq_eq_eq, forall₂_map_left_iff, forall₂_map_right_iff]
      refine (mapM_eq_ok.mp hfound).imp fun field input hinput => ?_
      obtain ⟨url, -, hinput⟩ := bind_eq_ok.mp hinput
      cases hinput
      rfl
    rw [((mergeSort_perm _ _).map _).mem_iff, ← hnames, mem_attrsetFields hfields]
    simp [FirstBinds, hfind]
  · cases h

/-- The inputs of a file are exact if every name that it declares is in its first `inputs`, and
none is declared in another way. -/
theorem inputs_exact_iff {top : List NixEntry} {declared : List FlakeInput}
    (h : inputs top = .ok declared) : Exact top declared ↔
      (∀ n, BindsInput top n → FirstBinds top n) ∧ ¬OtherInputs top := by
  refine and_congr_left' (forall_congr' fun n => ?_)
  rw [mem_inputs h]
  exact ⟨Iff.mpr, fun hn => ⟨FirstBinds.bindsInput, hn⟩⟩

/-- `{ inputs = { a = { url = "./a"; }; }; }`. -/
def nestedInput : List NixEntry :=
  [.attrpathValue [.ident "inputs"] (.attrSet false [.attrpathValue [.ident "a"]
    (.attrSet false [.attrpathValue [.ident "url"] (.str [.literal "./a"])])])]

theorem nestedInput_exact : Exact nestedInput [⟨"a", "./a"⟩] := by
  refine (inputs_exact_iff (by decide +kernel)).mpr ⟨?_, ?_⟩
  · rintro n ⟨attrs, value, hmem, hn⟩
    cases mem_singleton.mp hmem
    rcases hn with ⟨rest, hrest⟩ | ⟨-, isRec, entries, hvalue, hn⟩
    · cases hrest
    · cases hvalue
      exact ⟨_, _, rfl, hn⟩
  · rintro (⟨source, attrs, hmem, -⟩ | ⟨attrs, value, hmem, -, hvalue⟩)
    · cases mem_singleton.mp hmem
    · cases mem_singleton.mp hmem
      exact hvalue _ _ rfl

/-- `{ inputs.a.url = "./a"; }`. -/
def dottedInput : List NixEntry :=
  [.attrpathValue [.ident "inputs", .ident "a", .ident "url"] (.str [.literal "./a"])]

theorem dottedInput_dropped : inputs dottedInput = .ok [] ∧ ¬Exact dottedInput [] := by
  refine ⟨rfl, fun h => ?_⟩
  have ha : BindsInput dottedInput "a" := ⟨_, _, mem_cons_self, .inl ⟨["url"], rfl⟩⟩
  exact not_mem_nil ((h.1 "a").mpr ha)

end Flake

end Dnet
