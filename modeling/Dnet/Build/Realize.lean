import Dnet.Build.Derivation
import Dnet.Cas.Store
import Dnet.Reduce.Prim

/-!
# Derivations from attributes, and their realisation

`from_attrs`, `instantiate` and `realize` (drv.rs). A build gets a directory of its own; a
builtin builder writes the same bytes to every output path below it, and each output is then
put into the store under its name. Output names are joined to the directory as they are.
-/

namespace Dnet

open Lib

/-! ## Derivations from attributes -/

section

variable {P : Type}

section

variable (attrs : List (String × PrimValue P))

def find (key : String) : Option (PrimValue P) :=
  (attrs.find? fun e => e.1 = key).map Prod.snd

def asStr : PrimValue P → Option String
  | .str s => some s
  | .path p => some p
  | _ => none

def requireStr (key : String) : Except DrvError String :=
  match find attrs key with
  | some v =>
    match asStr v with
    | some s => .ok s
    | none => .error (.badAttrs (.text (key ++ " must be a string")))
  | none => .error (.badAttrs (.quoting "missing required attr " key ""))

/-- A list of strings, as `args` and `outputs` are read. -/
def strList (key : String) (default : List String) : Except DrvError (List String) :=
  match find attrs key with
  | some (.list xs) =>
    match xs.mapM asStr with
    | some strs => .ok strs
    | none => .error (.badAttrs (.text (key ++ " must be a list of strings")))
  | some _ => .error (.badAttrs (.text (key ++ " must be a list")))
  | none => .ok default

/-- Every attribute that is a string becomes a variable of the build. -/
def buildEnv : OrdMap String String :=
  OrdMap.empty.insertAll (attrs.filterMap fun (k, v) =>
    if k = "args" ∨ k = "outputs" then none else (asStr v).map fun s => (k, s))

def badName (name : String) : DrvError :=
  .badAttrs (.quoting "name " name " must be a single normal path component")

def fromAttrs : Except DrvError Derivation := do
  let name ← requireStr attrs "name"
  if !isPlainName name then .error (badName name)
  else
    let builder ← requireStr attrs "builder"
    let args ← strList attrs "args" []
    let outputs ← strList attrs "outputs" ["out"]
    let env := buildEnv attrs
    match outputs.find? fun out => (env.get? out).isSome with
    | some out =>
      .error (.badAttrs (.quoting "output " out " collides with an environment key"))
    | none => .ok { name, builder, args, env, inputSrcs := [], outputs }

end

theorem fromAttrs_plain {attrs : List (String × PrimValue P)} {d : Derivation}
    (h : fromAttrs attrs = .ok d) : Plain d.name := by
  obtain ⟨name, -, h⟩ := bind_eq_ok.mp h
  split at h
  · cases h
  · next hplain =>
    obtain ⟨builder, -, h⟩ := bind_eq_ok.mp h
    obtain ⟨args, -, h⟩ := bind_eq_ok.mp h
    obtain ⟨outputs, -, h⟩ := bind_eq_ok.mp h
    dsimp only at h
    split at h
    · cases h
    · cases h
      rw [Bool.not_eq_true', Bool.not_eq_false] at hplain
      exact isPlainName_iff.mp hplain

end

/-! ## JSON -/

/-- `\u` and four hex digits. -/
def unicodeEscape (c : Char) : List Char :=
  ['\\', 'u', '0', '0', Nat.digitChar (c.toNat / 16), Nat.digitChar (c.toNat % 16)]

def jsonChar (c : Char) : List Char :=
  if c = '"' then ['\\', '"']
  else if c = '\\' then ['\\', '\\']
  else if c = '\n' then ['\\', 'n']
  else if c = '\r' then ['\\', 'r']
  else if c = '\t' then ['\\', 't']
  else if c = '\x08' then ['\\', 'b']
  else if c = '\x0c' then ['\\', 'f']
  else if c.toNat < 0x20 then unicodeEscape c
  else [c]

def pushJsonStr (s : String) : List Char := '"' :: s.toList.flatMap jsonChar ++ ['"']

def jsonObject (env : OrdMap String String) : String :=
  String.ofList ('\x7b' ::
    [','].intercalate (env.entries.map fun (k, v) => pushJsonStr k ++ ':' :: pushJsonStr v)
      ++ ['\x7d'])

/-! ## Realisation -/

namespace Derivation

section

variable (h : Host)

/-- `instantiate`: store the description under the derivation's name. -/
def instantiate (d : Derivation) : Command World DrvError StorePath := fun w =>
  match Store.add h (d.name ++ ".drv") d.toBytes w with
  | (.ok p, w) => (.ok p, w)
  | (.error e, w) => (.error (.store e), w)

/-- The name of the directory of a build. -/
def tempName (d : Derivation) (n : Nat) : String :=
  "dnx-build-" ++ toString h.pid ++ "-" ++ toString n ++ "-" ++ d.name

def tempLoc (d : Derivation) (n : Nat) : List OsName := h.tempDir ++ [utf8 (d.tempName h n)]

def makeTempDir (d : Derivation) : Command World DrvError (List OsName) := fun w =>
  if !isPlainName d.name then (.error (badName d.name), w)
  else
    let w' := { w with builds := w.builds + 1 }
    match osPath (d.tempName h w.builds) with
    | .error _ => (.error .spawn, w')
    | .ok path =>
      match w.fs.createDirAll h.tempDir path with
      | (.ok (), fs) => (.ok (d.tempLoc h w.builds), { w' with fs })
      | (.error _, fs) => (.error .spawn, { w' with fs })

/-- The name of a builtin builder. -/
def builtin (d : Derivation) : Option String :=
  if "builtin:".toList.isPrefixOf d.builder.toList then
    some (String.ofList (d.builder.toList.drop "builtin:".length))
  else none

/-- The inputs of `builtin:concat`, one after another. -/
def concatInputs (fs : Fs OsName) : List StorePath → Except DrvError (List UInt8)
  | [] => .ok []
  | p :: ps =>
    match Store.get h fs p with
    | .error e => .error (.store e)
    | .ok none => .error (.missingInput p)
    | .ok (some bytes) => do return bytes ++ (← concatInputs fs ps)

/-- What a builtin builder writes to every output; the builders differ in nothing else. -/
def builtinBytes (d : Derivation) (name : String) (fs : Fs OsName) : Except DrvError (List UInt8) :=
  if name = "write" then
    match d.env.get? "text" with
    | some text => .ok (utf8 text)
    | none => .error (.badAttrs (.text "builtin:write requires a string `text` attr"))
  else if name = "concat" then concatInputs h fs (StorePath.sort d.inputSrcs)
  else if name = "json" then .ok (utf8 (jsonObject d.env))
  else .error (.unknownBuiltin name)

/-- The path of an output is the build directory joined with its name. -/
def writeOutput (temp : List OsName) (bytes : List UInt8) (out : String) :
    Command World DrvError Unit := fun w =>
  match osPath out with
  | .error _ => (.error .spawn, w)
  | .ok path =>
    match w.fs.write temp path bytes with
    | .error _ => (.error .spawn, w)
    | .ok fs => (.ok (), { w with fs })

def writeOutputs (temp : List OsName) (bytes : List UInt8) :
    List String → Command World DrvError Unit
  | [] => return ()
  | out :: outs => do
    writeOutput temp bytes out
    writeOutputs temp bytes outs

def runBuiltin (d : Derivation) (name : String) (temp : List OsName) :
    Command World DrvError Unit := do
  let bytes ← .ask fun w => d.builtinBytes h name w.fs
  writeOutputs temp bytes d.outputs

/-- Run a command of the store. -/
def inStore {α : Type} (c : Command World StoreError α) : Command World DrvError α := fun w =>
  match c w with
  | (.ok a, w) => (.ok a, w)
  | (.error e, w) => (.error (.store e), w)

/-- Put one output into the store. -/
def captureOutput (temp : List OsName) (out : String) : Command World DrvError StorePath := do
  let path ← .ask fun _ => match osPath out with
    | .ok path => .ok path
    | .error _ => .error (.missingOutput out)
  let node ← .ask fun w => match w.fs.symlinkMetadata temp path with
    | .ok node => .ok node
    | .error _ => .error (.missingOutput out)
  match node with
  | .link _ => .fail (.outputSymlink out)
  | .dir => inStore (Store.addTree h out temp path)
  | .file _ =>
    let bytes ← .ask fun w => match w.fs.read temp path with
      | .ok bytes => .ok bytes
      | .error _ => .error .spawn
    inStore (Store.add h out bytes)

def capture (temp : List OsName) :
    List String → OrdMap String StorePath → Command World DrvError (OrdMap String StorePath)
  | [], results => return results
  | out :: outs, results => do
    let stored ← captureOutput h temp out
    capture temp outs (results.insert out stored)

/-- An external builder is any program. -/
abbrev External := Derivation → List OsName → Command World DrvError Unit

variable (external : External)

def realizeIn (d : Derivation) (temp : List OsName) :
    Command World DrvError (OrdMap String StorePath) := do
  match d.builtin with
  | some name => d.runBuiltin h name temp
  | none => external d temp
  capture h temp d.outputs .empty

/-- `realize`: the build directory is removed whatever the outcome. -/
def realize (d : Derivation) : Command World DrvError (OrdMap String StorePath) := fun w =>
  match d.makeTempDir h w with
  | (.error e, w) => (.error e, w)
  | (.ok temp, w) =>
    let (result, w) := d.realizeIn h external temp w
    (result, { w with fs := w.fs.removeTree temp })

end

end Derivation

end Dnet
