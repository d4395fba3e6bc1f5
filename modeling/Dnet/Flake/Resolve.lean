import Dnet.Flake.Inputs
import Mathlib.Data.Set.Card

/-!
# The inputs that `outputs` gets

`resolved_inputs_with` (dnx-flake/flake.rs) applies the outputs of every input to that input's own
inputs. A directory that is being resolved is on the chain and gives a marker instead, so calls
are nested at most as deep as there are directories (`resolvedInputs_ends`).
-/

namespace Dnet

open Lib List Call

/-- What flakes are read from: files, the parser, and the text of the value of `outputs`. -/
structure FlakeDisk where
  isDir : String → Bool
  readToString : String → Except String String
  canonicalize : String → Option String
  parent : String → Option String
  parse : String → List String × Option Nix
  outputsText : String → String

structure Flake where
  src : String
  dir : String

/-- The text of the inputs of a flake and the chain after it. -/
abbrev ResolveCall := Flake → List String → Call FlakeError (String × List String)

namespace Flake

def escapeNixString (s : String) : String :=
  String.ofList (s.toList.flatMap fun c => if c ∈ ['\\', '"', '$'] then ['\\', c] else [c])

def inputFlakeDir (f : Flake) (url : String) : String := NixPath.join f.dir url

section

variable (d : FlakeDisk)

def parseTopAttrset (src : String) : Except FlakeError (List NixEntry) :=
  match d.parse src with
  | (e :: errors, _) => .error (.parse ("; ".intercalate (e :: errors)))
  | ([], none) => .error (.parse "empty flake.nix")
  | ([], some (.attrSet _ entries)) => .ok entries
  | ([], some _) => .error (.notAFlake "top-level is not an attribute set")

/-- The check that there are `outputs`, in `load` and in `outputs_source`. -/
def checkOutputs (src : String) : Except FlakeError Unit := do
  if (findEntry (← parseTopAttrset d src) "outputs").isNone then
    .error (.notAFlake "missing `outputs`")

def load (path : String) : Except FlakeError Flake := do
  let file := if d.isDir path then NixPath.join path "flake.nix" else path
  let src ← (d.readToString file).mapError fun e => .io (file ++ ": " ++ e)
  checkOutputs d src
  return ⟨src, (d.parent file).getD "."⟩

/-- `Flake::inputs`. -/
def declared (f : Flake) : Except FlakeError (List FlakeInput) := do
  inputs (← parseTopAttrset d f.src)

def outputsSource (f : Flake) : Except FlakeError String := do
  checkOutputs d f.src
  return d.outputsText f.src

def canonical (path : String) : String := (d.canonicalize path).getD path

def canonicalInput (f : Flake) (i : FlakeInput) : String := canonical d (f.inputFlakeDir i.url)

def marker (dir : String) : String := "\x7b outPath = \"" ++ escapeNixString dir ++ "\"; \x7d"

def binding (name value : String) : String :=
  "\"" ++ escapeNixString name ++ "\" = " ++ value ++ "; "

/-- One round of the loop of `resolved_inputs_with`, which calls itself by `resolve`. The state is
the text and the chain. -/
def resolveInput (resolve : ResolveCall) (f : Flake) (st : String × List String)
    (input : FlakeInput) : Call FlakeError (String × List String) := do
  let dir := f.inputFlakeDir input.url
  let canon := canonicalInput d f input
  if canon ∈ st.2 then return (st.1 ++ binding input.name (marker dir), st.2)
  else
    let dep ← (some (load d dir) : Call FlakeError Flake)
    let (inner, chain) ← resolve dep (st.2 ++ [canon])
    let out ← (some (outputsSource d dep) : Call FlakeError String)
    return (st.1 ++ binding input.name ("(" ++ out ++ ") (" ++ inner ++ ")"), chain.dropLast)

/-- `resolved_inputs_with`, with at most `depth` calls inside each other. -/
def resolvedInputsWith : Nat → ResolveCall
  | 0, _, _ => .pending
  | depth + 1, f, chain => do
    let inputs ← (some (declared d f) : Call FlakeError (List FlakeInput))
    let (text, chain) ←
      inputs.foldlM (resolveInput d (resolvedInputsWith depth) f) ("\x7b ", chain)
    return (text ++ "\x7d", chain)

/-! ## What is rendered -/

/-- The bindings for inputs of `f`: an input on the chain is a marker, every other one is
expanded. -/
inductive Rendered : List String → Flake → List FlakeInput → String → Prop
  | nil {chain : List String} {f : Flake} : Rendered chain f [] ""
  | marker {chain : List String} {f : Flake} {i : FlakeInput} {rest : List FlakeInput}
      {s : String} (hon : canonicalInput d f i ∈ chain) : Rendered chain f rest s →
        Rendered chain f (i :: rest) (binding i.name (marker (f.inputFlakeDir i.url)) ++ s)
  | expanded {chain : List String} {f dep : Flake} {i : FlakeInput} {rest inputs : List FlakeInput}
      {s inner out : String} (hoff : canonicalInput d f i ∉ chain)
      (hload : load d (f.inputFlakeDir i.url) = .ok dep) (hdep : declared d dep = .ok inputs)
      (hout : outputsSource d dep = .ok out) :
      Rendered (chain ++ [canonicalInput d f i]) dep inputs inner →
      Rendered chain f rest s → Rendered chain f (i :: rest)
        (binding i.name ("(" ++ out ++ ") (" ++ ("\x7b " ++ inner ++ "\x7d") ++ ")") ++ s)

/-- All inputs of `f` are rendered, and the chain is as it was. -/
def Resolved (f : Flake) (chain : List String) (r : String × List String) : Prop :=
  ∃ inputs s, declared d f = .ok inputs ∧ Rendered d chain f inputs s ∧
    r = ("\x7b " ++ s ++ "\x7d", chain)

/-- The call for the flake of an input that is not on the chain. -/
def Expands (resolve : ResolveCall) (f : Flake) (chain : List String) (i : FlakeInput) : Prop :=
  canonicalInput d f i ∉ chain → ∀ dep, load d (f.inputFlakeDir i.url) = .ok dep →
    (resolve dep (chain ++ [canonicalInput d f i])).Ends
      (Resolved d dep (chain ++ [canonicalInput d f i]))

/-- Inputs lead from the root to a flake that is read from a directory, given by its canonical
path. -/
inductive Reaches (root : Flake) : Flake → String → Prop
  | root : Reaches root root (canonical d root.dir)
  | input {f dep : Flake} {dir : String} {inputs : List FlakeInput} {i : FlakeInput} :
      Reaches root f dir → declared d f = .ok inputs → i ∈ inputs →
      load d (f.inputFlakeDir i.url) = .ok dep →
      Reaches root dep (canonicalInput d f i)

def dirs (root : Flake) : Set String := { dir | ∃ f, Reaches d root f dir }

end

section

variable {d : FlakeDisk} {resolve : ResolveCall} {f : Flake} {chain : List String}

theorem resolveInput_ends {i : FlakeInput} (hi : Expands d resolve f chain i) (text : String) :
    (resolveInput d resolve f (text, chain) i).Ends fun st => ∃ b, st = (text ++ b, chain) ∧
      ∀ {rest s}, Rendered d chain f rest s → Rendered d chain f (i :: rest) (b ++ s) := by
  unfold resolveInput
  dsimp only
  split
  · next hon => exact .inr ⟨_, rfl, _, rfl, .marker hon⟩
  · next hoff =>
    refine (ends_some _).bind fun dep hload => (hi hoff dep hload).bind ?_
    rintro _ ⟨inputs, s, hdep, hs, rfl⟩
    refine (ends_some _).bind fun out hout => ?_
    refine .inr ⟨_, rfl, _, ?_, .expanded hoff hload hdep hout hs⟩
    rw [dropLast_concat]

theorem foldlM_resolveInput : ∀ {inputs : List FlakeInput},
    (∀ i ∈ inputs, Expands d resolve f chain i) → ∀ text,
    (inputs.foldlM (resolveInput d resolve f) (text, chain)).Ends fun st =>
      ∃ s, st = (text ++ s, chain) ∧ Rendered d chain f inputs s
  | [], _, text => .inr ⟨_, rfl, "", by rw [String.append_empty], .nil⟩
  | i :: rest, hres, text => by
    obtain ⟨hi, hrest⟩ := forall_mem_cons.mp hres
    rw [foldlM_cons]
    refine (resolveInput_ends hi text).bind ?_
    rintro _ ⟨b, rfl, hb⟩
    rcases foldlM_resolveInput hrest (text ++ b) with he | ⟨_, hok, s, rfl, hs⟩
    · exact .inl he
    · exact .inr ⟨_, hok, b ++ s, by rw [String.append_assoc], hb hs⟩

end

section

variable {d : FlakeDisk} {root : Flake}

-- The chain has distinct directories, so there is room for one more call.
theorem resolvedInputsWith_ends (hfin : (dirs d root).Finite) : ∀ {depth : Nat} {f : Flake}
    {chain : List String} {dir : String}, Reaches d root f dir → chain.Nodup →
    (∀ c ∈ chain, c ∈ dirs d root) → (dirs d root).ncard < depth + chain.length →
    (resolvedInputsWith d depth f chain).Ends (Resolved d f chain)
  | 0, f, chain, _, _, hnd, hin, hlt => by
    have hle : chain.toFinset.card ≤ hfin.toFinset.card :=
      Finset.card_le_card fun c hc => hfin.mem_toFinset.mpr (hin c (mem_toFinset.mp hc))
    rw [toFinset_card_of_nodup hnd, ← Set.ncard_eq_toFinset_card _ hfin] at hle
    omega
  | depth + 1, f, chain, dir, hf, hnd, hin, hlt => by
    unfold resolvedInputsWith
    refine (ends_some _).bind fun inputs hinputs =>
      (foldlM_resolveInput (fun i hi hoff dep hload => ?_) _).bind ?_
    · have hdep := hf.input hinputs hi hload
      refine resolvedInputsWith_ends hfin hdep ?_ ?_ ?_
      · exact concat_eq_append ▸ hnd.concat hoff
      · intro c hc
        exact (mem_append.mp hc).elim (hin c) fun hc => ⟨dep, mem_singleton.mp hc ▸ hdep⟩
      · rw [length_append, length_singleton]
        omega
    · rintro _ ⟨s, rfl, hs⟩
      exact .inr ⟨_, rfl, inputs, s, hinputs, hs, rfl⟩

/-- On every finite graph of flakes, calls that are nested as deep as there are directories are
enough: the call fails, or renders the inputs and leaves the chain as it was. -/
theorem resolvedInputs_ends (hfin : (dirs d root).Finite) {depth : Nat}
    (hdepth : (dirs d root).ncard ≤ depth) :
    (resolvedInputsWith d depth root [canonical d root.dir]).Ends
      (Resolved d root [canonical d root.dir]) :=
  resolvedInputsWith_ends hfin .root (nodup_singleton _)
    (fun _ hc => mem_singleton.mp hc ▸ ⟨root, .root⟩) (Nat.lt_succ_of_le hdepth)

/-- Every path leads to one directory, whose flake has itself as an input. -/
def loopDisk : FlakeDisk where
  isDir := fun _ => true
  readToString := fun _ => .ok ""
  canonicalize := fun _ => some "/r"
  parent := fun _ => some "/r"
  parse := fun _ => ([], some (.attrSet false
    (nestedInput ++ [.attrpathValue [.ident "outputs"] (.str [])])))
  outputsText := fun _ => ""

theorem loopDisk_ends : (resolvedInputsWith loopDisk 1 ⟨"", "/r"⟩ ["/r"]).Ends
    (Resolved loopDisk ⟨"", "/r"⟩ ["/r"]) := by
  have hsub : dirs loopDisk ⟨"", "/r"⟩ ⊆ {"/r"} := by
    rintro dir ⟨f, hf⟩
    cases hf <;> rfl
  have hcard := Set.ncard_le_ncard hsub (Set.finite_singleton _)
  rw [Set.ncard_singleton] at hcard
  exact resolvedInputs_ends ((Set.finite_singleton _).subset hsub) hcard

end

end Flake

end Dnet
