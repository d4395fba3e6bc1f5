import Dnet.Cas.Path
import Dnet.Front.Prelude
import Dnet.Lib.Query

/-!
# The Nix front end

dnx-lang/parser: the syntax tree that the parser of the crate `rnix` returns becomes a term. Every
variable of the term is used once, by the counts that the translation keeps in its scope.

`import` is resolved here; what the translation returns depends on the answers to the files it
asks for (`FileQuery`) and on nothing else (`Query.run_congr`). The tree is that of a source that
was parsed without an error, so the errors for missing parts have no counterpart.
-/

namespace Dnet

open Lib

/-! ## Syntax trees -/

inductive BinOpKind where
  | concat | update | add | sub | mul | div
  | equal | notEqual | less | lessOrEq | more | moreOrEq
  | and | implication | or | pipeRight | pipeLeft
  deriving DecidableEq, Repr

inductive UnaryOpKind where
  | invert
  | negate
  deriving DecidableEq, Repr

mutual

/-- An expression. The value of a number is what the number's text parses to, or the error of
that. A path is its text, with the brackets of a search path. -/
inductive Nix where
  | ident (x : Name)
  | lambda (x : Name) (body : Nix)
  | lambdaPattern (bind : Option Name) (entries : List (Name × Option Nix)) (body : Nix)
  | apply (f x : Nix)
  | letIn (entries : List NixEntry) (body : Nix)
  | ifElse (condition body elseBody : Nix)
  | assert (condition body : Nix)
  | withIn (space body : Nix)
  | int (value : Except String Int64)
  | float (value : Except String UInt64)
  | uri (text : String)
  | str (parts : List StrPart)
  | path (text : String)
  | binOp (op : BinOpKind) (lhs rhs : Nix)
  | unaryOp (op : UnaryOpKind) (e : Nix)
  | list (items : List Nix)
  | attrSet (isRec : Bool) (entries : List NixEntry)
  | select (set : Nix) (attrs : List NixAttr) (default : Option Nix)
  | hasAttr (set : Nix) (attrs : List NixAttr)
  | paren (e : Nix)
  | root (e : Nix)
  /-- The forms that the translation does not know. -/
  | other

/-- `normalized_parts` of a string. -/
inductive StrPart where
  | literal (s : String)
  | interpolation (e : Nix)

inductive NixAttr where
  | ident (x : Name)
  | str (parts : List StrPart)
  | dynamic (e : Nix)

inductive NixEntry where
  | attrpathValue (attrs : List NixAttr) (value : Nix)
  | inherit (source : Option Nix) (attrs : List NixAttr)

end

inductive NixError where
  | parseError (s : String)
  | unboundVariable (x : Name)
  | unsupportedSyntax (s : String)
  | linearityViolation (s : String)
  | internalError (s : String)
  | importCycle (path : String)
  | searchPathUnset (s : String)
  deriving DecidableEq, Repr

namespace NixError

/-- `Display`. -/
def message : NixError → String
  | parseError s => "parse error: " ++ s
  | unboundVariable x => "unbound variable: " ++ x
  | unsupportedSyntax s => "unsupported syntax: " ++ s
  | linearityViolation s => "linearity violation: " ++ s
  | internalError s => "internal error: " ++ s
  | importCycle path => "import cycle: " ++ path
  | searchPathUnset s => "search path <" ++ s ++ "> not set (configure via DNX_PATH)"

end NixError

/-! ## Paths of files -/

namespace NixPath

def isRelative (path : String) : Bool := path.toList.head? ≠ some '/'

/-- `PathBuf::push`. -/
def join (base path : String) : String :=
  if !isRelative path then path
  else if base.toList.getLast?.all (· = '/') then base ++ path
  else base ++ "/" ++ path

/-- The names below the root or the start, with `..` resolved in the text. -/
def resolve (cs : List Component) : List String :=
  cs.foldl (fun out c => match c with
    | .normal name => out ++ [name]
    | .parentDir => out.dropLast
    | .rootDir | .curDir => out) []

def lexicalAbs (path : String) : String :=
  let cs := components path
  (if cs.head? = some .rootDir then "/" else "") ++ "/".intercalate (resolve cs)

/-- `Path::parent` of a canonical path; that of the root is the empty path. -/
def parent (path : String) : String :=
  let cs := components path
  if cs.length ≤ 1 then ""
  else (if cs.head? = some .rootDir then "/" else "") ++ "/".intercalate (resolve cs.dropLast)

end NixPath

/-! ## The translation's state -/

/-- What the translation asks the file system. -/
inductive FileQuery where
  | isDir (path : String)
  | readToString (path : String)
  | canonicalize (path : String)
  deriving DecidableEq

/-- A failed read is the text of its error. -/
def FileQuery.Answer : FileQuery → Type
  | isDir _ => Bool
  | readToString _ => Except String String
  | canonicalize _ => Option String

/-- The files, as the translation sees them. -/
abbrev Files := ∀ q : FileQuery, q.Answer

/-- What comes from outside: the parser, with its errors and the tree, the working directory and
the variable `DNX_PATH`. -/
structure NixHost where
  parse : String → List String × Option Nix
  currentDir : Except String String
  dnxPath : Option String

/-- The entries `name=dir` of `DNX_PATH`; the first one of a name counts. -/
def searchPathsFromEnv (raw : Option String) : List (String × String) :=
  match raw with
  | none => []
  | some raw => (raw.toList.splitOn ':').filterMap fun entry =>
    match entry.span (· ≠ '=') with
    | (name, _ :: dir) => if name = [] then none else some (String.ofList name, String.ofList dir)
    | _ => none

/-- `binders` has the counts of the binders of a name, the innermost one first. -/
structure Scope where
  binders : Name → List Nat
  baseDir : Option String
  inProgress : List String
  searchPaths : List (String × String)

namespace Scope

/-- No binder is in scope. -/
def new (host : NixHost) : Scope where
  binders _ := []
  baseDir := none
  inProgress := []
  searchPaths := searchPathsFromEnv host.dnxPath

def bind (s : Scope) (x : Name) : Scope :=
  { s with binders := Function.update s.binders x (0 :: s.binders x) }

def unbind (s : Scope) (x : Name) : Scope :=
  { s with binders := Function.update s.binders x (s.binders x).tail }

/-- Counts one use; a name that is not bound has none. -/
def useVar (s : Scope) (x : Name) : Scope :=
  match s.binders x with
  | [] => s
  | count :: rest => { s with binders := Function.update s.binders x ((count + 1) :: rest) }

def useCount (s : Scope) (x : Name) : Nat := (s.binders x).head?.getD 0

def isBound (s : Scope) (x : Name) : Bool := !(s.binders x).isEmpty

end Scope

/-- The scope, and the counter behind the fresh names. -/
structure TranslateState where
  scope : Scope
  freshCtr : Nat

/-- A part of the translation. It can fail, and it panics where the source indexes a list out of
range. -/
def Translate (α : Type) :=
  TranslateState → Query FileQuery FileQuery.Answer (Call NixError (α × TranslateState))

namespace Translate

variable {α β : Type}

/-- Go on with what was returned. -/
def next (f : α → Translate β) :
    Call NixError (α × TranslateState) → Query FileQuery FileQuery.Answer
      (Call NixError (β × TranslateState))
  | some (.ok (a, st)) => f a st
  | some (.error e) => .done (.error e)
  | none => .done .pending

instance : Monad Translate where
  pure a st := .done (.ok (a, st))
  bind x f st := (x st).bind (next f)

def fail (e : NixError) : Translate α := fun _ => .done (.error e)

def ofExcept : Except NixError α → Translate α
  | .ok a => pure a
  | .error e => fail e

/-- A panic if there is no value. -/
def ofOption : Option α → Translate α
  | some a => pure a
  | none => fun _ => .done .pending

def ask (q : FileQuery) : Translate q.Answer := fun st => .ask q fun r => .done (.ok (r, st))

def scope : Translate Scope := fun st => .done (.ok (st.scope, st))

def modify (f : Scope → Scope) : Translate Unit := fun st =>
  .done (.ok ((), { st with scope := f st.scope }))

/-- Run a part in a scope of its own. -/
def inScope (scope : Scope) (x : Translate α) : Translate α := fun st =>
  (x ⟨scope, st.freshCtr⟩).bind (next fun a st' => .done (.ok (a, ⟨st.scope, st'.freshCtr⟩)))

def fresh (stem : String) : Translate Name := fun st =>
  .done (.ok ("_nix_" ++ stem ++ toString st.freshCtr, { st with freshCtr := st.freshCtr + 1 }))

def wrap (x : Name) (uses : Nat) (body : NixTerm) : Translate NixTerm :=
  ofOption (Dnet.wrapUses Ast.indexedRename x uses body)

end Translate

/-! ## Names that are not variables -/

/-- `nixprimfun_name`: the key of a primitive in the table, if it has one. -/
def nixPrimFunName : NixPrimFun → Option String
  | .add => some "add"
  | .sub => some "sub"
  | .mul => some "mul"
  | .div => some "div"
  | .neg => some "neg"
  | .eq => some "eq"
  | .ne => some "ne"
  | .lt => some "lt"
  | .le => some "le"
  | .gt => some "gt"
  | .ge => some "ge"
  | .select => some "select"
  | .selectOr => some "select_or"
  | .emptyAttrSet => some "empty_attr_set"
  | .hasAttr => some "has_attr"
  | .insert => some "insert"
  | .update => some "update"
  | .toString2 => some "to_string"
  | .throw => some "throw"
  | .builtin name => [("derivationStrict", "derivation_strict"), ("attrNames", "attr_names"),
      ("attrValues", "attr_values"), ("isAttrs", "is_attrs"), ("isBool", "is_bool"),
      ("isPath", "is_path"), ("toFloat", "to_float"), ("toJSON", "to_json"), ("throw", "throw"),
      ("abort", "abort"), ("baseNameOf", "base_name_of"), ("dirOf", "dir_of"),
      ("getAttr", "get_attr"), ("removeAttrs", "remove_attrs"),
      ("intersectAttrs", "intersect_attrs"), ("catAttrs", "cat_attrs"),
      ("concatLists", "concat_lists"), ("concatStringsSep", "concat_strings_sep"),
      ("listToAttrs", "list_to_attrs"), ("seq", "seq"), ("deepSeq", "deep_seq"),
      ("replaceStrings", "replace_strings"), ("fromJSON", "from_json"), ("typeOf", "type_of"),
      ("isFunction", "is_function"), ("isInt", "is_int"), ("isFloat", "is_float"),
      ("isString", "is_string"), ("isNull", "is_null"), ("isList", "is_list"),
      ("stringLength", "string_length"), ("substring", "substring"), ("toString", "to_string"),
      ("toInt", "to_int"), ("bitAnd", "bit_and"), ("bitOr", "bit_or"), ("bitXor", "bit_xor")
    ].lookup name

/-- The definitions of prelude.rs, in Nix. -/
def preludeDefs : List (Name × Nix) :=
  let lam (xs : List Name) (body : Nix) : Nix := xs.foldr .lambda body
  let app (f : Nix) (xs : List Nix) : Nix := xs.foldl .apply f
  let v (x : Name) : Nix := .ident x
  let int (n : Int64) : Nix := .int (.ok n)
  let fix (body : Nix) : Nix := .paren (.apply (v "fix") (.paren body))
  [("derivation", lam ["drv"] (app (v "derivationStrict") [v "drv"])),
    ("nil", lam ["c", "n"] (v "n")),
    ("cons", lam ["h", "t", "c", "n"] (app (v "c") [v "h", v "t"])),
    ("head", lam ["xs"] (app (v "xs") [.paren (lam ["h", "t"] (v "h")), v "nil"])),
    ("tail", lam ["xs"] (app (v "xs") [.paren (lam ["h", "t"] (v "t")), v "nil"])),
    ("isNil", lam ["xs"] (app (v "xs") [.paren (lam ["h", "t"] (v "false")), v "true"])),
    ("length", lam ["xs"] (app (fix (lam ["self", "ys", "acc"] (app (v "ys") [
      .paren (lam ["h", "t"] (app (v "self") [v "t", .paren (.binOp .add (v "acc") (int 1))])),
      v "acc"]))) [v "xs", int 0])),
    ("elemAt", lam ["xs", "i"] (app (fix (lam ["self", "ys", "j"] (app (v "ys") [
      .paren (lam ["h", "t"] (.ifElse (.binOp .equal (v "j") (v "i")) (v "h")
        (app (v "self") [v "t", .paren (.binOp .add (v "j") (int 1))]))),
      v "nil"]))) [v "xs", int 0])),
    ("elem", lam ["x", "xs"] (app (fix (lam ["self", "ys"] (app (v "ys") [
      .paren (lam ["h", "t"] (.ifElse (.binOp .equal (v "h") (v "x")) (v "true")
        (app (v "self") [v "t"]))),
      v "false"]))) [v "xs"])),
    ("concat", lam ["a", "b"] (app (fix (lam ["self", "xs"] (app (v "xs") [
      .paren (lam ["h", "t"] (app (v "cons") [v "h", .paren (app (v "self") [v "t"])])),
      v "b"]))) [v "a"])),
    ("map", lam ["f", "xs"] (app (fix (lam ["self", "ys"] (app (v "ys") [
      .paren (lam ["h", "t"] (app (v "cons") [.paren (app (v "f") [v "h"]),
        .paren (app (v "self") [v "t"])])),
      v "nil"]))) [v "xs"])),
    ("filter", lam ["pred", "xs"] (app (fix (lam ["self", "ys"] (app (v "ys") [
      .paren (lam ["h", "t"] (.ifElse (app (v "pred") [v "h"])
        (app (v "cons") [v "h", .paren (app (v "self") [v "t"])]) (app (v "self") [v "t"]))),
      v "nil"]))) [v "xs"])),
    ("foldl'", lam ["op", "acc", "xs"] (app (fix (lam ["self", "a", "ys"] (app (v "ys") [
      .paren (lam ["h", "t"] (app (v "self") [.paren (app (v "op") [v "a", v "h"]), v "t"])),
      v "a"]))) [v "acc", v "xs"])),
    ("genList", lam ["gen", "count"] (app (fix (lam ["self", "i"]
      (.ifElse (.binOp .less (v "i") (v "count")) (app (v "cons") [.paren (app (v "gen") [v "i"]),
          .paren (app (v "self") [.paren (.binOp .add (v "i") (int 1))])])
        (v "nil")))) [int 0])),
    ("concatMap", lam ["f", "xs"] (app (fix (lam ["self", "ys"] (app (v "ys") [
      .paren (lam ["h", "t"] (app (v "concat") [.paren (app (v "f") [v "h"]),
        .paren (app (v "self") [v "t"])])),
      v "nil"]))) [v "xs"]))]

def isPreludeName (x : Name) : Bool := (preludeDefs.lookup x).isSome

/-! ## Parts of the translation -/

def prim2 (f : NixPrimFun) (a b : NixTerm) : NixTerm := .app (.app (.fn f) a) b

def prim3 (f : NixPrimFun) (a b c : NixTerm) : NixTerm := .app (prim2 f a b) c

/-- The literal parts of a string. -/
def literalText (parts : List StrPart) : String :=
  String.join (parts.filterMap fun part => match part with
    | .literal l => some l
    | .interpolation _ => none)

/-- Interpolated parts of a key are dropped. -/
def attrStaticName : NixAttr → Except NixError Name
  | .ident x => .ok x
  | .str parts => .ok (literalText parts)
  | .dynamic _ => .error (.unsupportedSyntax "dynamic attr key")

/-- The dotted name of a path of keys. -/
def attrpathToStr (attrs : List NixAttr) : Except NixError Name := do
  return ".".intercalate (← attrs.mapM attrStaticName)

def Nix.asIdent : Nix → Option Name
  | .ident x => some x
  | _ => none

namespace Translate

def ident (x : Name) : Translate NixTerm := do
  if x = "true" then return .val (.bool true)
  else if x = "false" then return .val (.bool false)
  else if x = "null" then return .val .null
  else if (← scope).isBound x then
    modify (·.useVar x)
    return .name x
  else if isPreludeName x then return .name x
  else return .fn (.builtin x)

/-- The uses of `x` are counted in the body. -/
def letBind (x : Name) (val body : NixTerm) : Translate NixTerm := do
  return .app (.abs x (← wrap x (body.countUsesIn x) body)) val

def letBinds : List (Name × NixTerm) → NixTerm → Translate NixTerm
  | [], body => return body
  | (x, val) :: rest, body => do letBind x val (← letBinds rest body)

/-- `λx. body` applied to `val`, with the number of uses that the scope has counted. -/
def counted : List ((Name × NixTerm) × Nat) → NixTerm → Translate NixTerm
  | [], body => return body
  | ((x, val), uses) :: rest, body => do
    let body ← counted rest body
    return .app (.abs x (← wrap x uses body)) val

def bindAll (xs : List Name) : Translate Unit := modify (xs.foldl Scope.bind)

def unbindAll (xs : List Name) : Translate Unit := modify (xs.foldl Scope.unbind)

/-- The source of an `inherit` is translated again for every name. -/
def desugarInherit (source : Option (Translate NixTerm)) :
    List NixAttr → Translate (List (Name × NixTerm))
  | [] => return []
  | attr :: attrs => do
    let x ← ofExcept (attrStaticName attr)
    let val ← match source with
      | some source => do
        let e ← source
        pure (prim2 .select e (.val (.str x)))
      | none => do
        modify (·.useVar x)
        pure (.name x)
    return (x, val) :: (← desugarInherit source attrs)

/-- The values of the bindings: those of `inherit` are there, the others come in their order. -/
def fillIn : List (Name × Option NixTerm) → List NixTerm → List (Name × NixTerm)
  | (x, some val) :: bindings, vals => (x, val) :: fillIn bindings vals
  | (x, none) :: bindings, val :: vals => (x, val) :: fillIn bindings vals
  | _, _ => []

/-! ### Paths with several keys -/

def selectChain (set : NixTerm) (keys : List Name) : NixTerm :=
  keys.foldl (fun result k => prim2 .select result (.name k)) set

/-- The tests for the keys, each below the keys before it. -/
def hops (set : Name) : (before after : List Name) → List NixTerm
  | _, [] => []
  | before, k :: after =>
    prim2 .hasAttr (selectChain (.name set) before) (.name k) :: hops set (before ++ [k]) after

def hasPathNamed (set : NixTerm) (keys : List Name) : Translate NixTerm := do
  let s ← fresh "has"
  match hops s [] keys with
  | [] => fail (.unsupportedSyntax "hasAttr empty path")
  | hop :: more =>
    letBind s set (more.foldl (fun acc hop => app2 acc hop (.val (.bool false))) hop)

/-! ### `with` -/

def withFieldBinder (f : Name) : Name := "_nix_with_" ++ f

/-- The names that the body takes from the set, in the order of their first use, and the body
with a variable for each. -/
def rewriteNode : NixTerm → List Name → NixTerm × List Name
  | .fn (.builtin x), fields =>
    if (nixPrimFunName (.builtin x)).isNone then
      (.name (withFieldBinder x), if x ∈ fields then fields else fields ++ [x])
    else (.fn (.builtin x), fields)
  | .abs x body, fields =>
    let (body, fields) := rewriteNode body fields
    (.abs x body, fields)
  | .app f x, fields =>
    let (f, fields) := rewriteNode f fields
    let (x, fields) := rewriteNode x fields
    (.app f x, fields)
  | .rep e a b body, fields =>
    let (e, fields) := rewriteNode e fields
    let (body, fields) := rewriteNode body fields
    (.rep e a b body, fields)
  | .era e body, fields =>
    let (e, fields) := rewriteNode e fields
    let (body, fields) := rewriteNode body fields
    (.era e body, fields)
  | .fix e, fields =>
    let (e, fields) := rewriteNode e fields
    (.fix e, fields)
  | other, fields => (other, fields)

def withIn (env body : NixTerm) : Translate NixTerm := do
  let w ← fresh "with"
  let (body, fields) := rewriteNode body []
  let lets ← letBinds (fields.map fun f =>
    (withFieldBinder f, prim2 .select (.name w) (.val (.str f)))) body
  return .app (.abs w (← wrap w fields.length lets)) env

/-! ### Operators and paths -/

/-- The application of an operator, or how the source prints one that it does not know. -/
def binOp : BinOpKind → Except String (NixTerm → NixTerm → NixTerm)
  | .and => .ok fun lhs rhs => app2 lhs rhs (.val (.bool false))
  | .or => .ok fun lhs rhs => app2 lhs (.val (.bool true)) rhs
  | .implication => .ok fun lhs rhs => app2 lhs rhs (.val (.bool true))
  | .concat => .ok (app2 (.name "concat"))
  | .add => .ok (prim2 .add)
  | .sub => .ok (prim2 .sub)
  | .mul => .ok (prim2 .mul)
  | .div => .ok (prim2 .div)
  | .equal => .ok (prim2 .eq)
  | .notEqual => .ok (prim2 .ne)
  | .less => .ok (prim2 .lt)
  | .lessOrEq => .ok (prim2 .le)
  | .more => .ok (prim2 .gt)
  | .moreOrEq => .ok (prim2 .ge)
  | .update => .ok (prim2 .update)
  | .pipeRight => .error "PipeRight"
  | .pipeLeft => .error "PipeLeft"

def unaryOp : UnaryOpKind → NixTerm → NixTerm
  | .invert, e => app2 e (.val (.bool false)) (.val (.bool true))
  | .negate, e => .app (.fn .neg) e

def pathLiteral (host : NixHost) (text : String) : Translate NixTerm := do
  if NixPath.isRelative text then
    let base ← match (← scope).baseDir with
      | some base => pure base
      | none => ofExcept (host.currentDir.mapError fun e => .parseError ("path literal cwd: " ++ e))
    return .val (.path (NixPath.lexicalAbs (NixPath.join base text)))
  else return .val (.path (NixPath.lexicalAbs text))

/-! ### Targets of `import` -/

/-- The text between the brackets of a search path. -/
def angleInner : Nix → Option String
  | .path text =>
    match text.toList with
    | '<' :: rest => if rest.getLast? = some '>' then some (String.ofList rest.dropLast) else none
    | _ => none
  | _ => none

/-- The whole text is tried first, then its first part. -/
def resolveAngle (inner : String) (scope : Scope) : Except NixError String :=
  match scope.searchPaths.lookup inner with
  | some dir => .ok dir
  | none =>
    match inner.toList.span (· ≠ '/') with
    | (root, _ :: sub) =>
      match scope.searchPaths.lookup (String.ofList root) with
      | some dir => .ok (NixPath.join dir (String.ofList sub))
      | none => .error (.searchPathUnset inner)
    | _ => .error (.searchPathUnset inner)

def literalPathText : Nix → Option String
  | .path text => some text
  | .str parts =>
    if parts.all fun part => match part with
      | .literal _ => true
      | .interpolation _ => false
    then some (literalText parts) else none
  | _ => none

def importTarget (x : Nix) : Translate String := do
  match angleInner x with
  | some inner => ofExcept (resolveAngle inner (← scope))
  | none =>
    match literalPathText x with
    | some path => return path
    | none => fail (.unsupportedSyntax "import: non-literal path")

end Translate

/-! ## The translation -/

section

open Translate

variable (host : NixHost) (importFile : String → Translate NixTerm)

mutual

/-- `translate_expr`, over the call that translates an imported file. -/
def translateExpr : Nix → Translate NixTerm
  | .ident x => ident x
  | .lambda x body => do
    modify (·.bind x)
    let body ← translateExpr body
    let uses := (← scope).useCount x
    modify (·.unbind x)
    return .abs x (← wrap x uses body)
  | .lambdaPattern bind entries body => do
    let arg ← match bind with
      | some x => pure x
      | none => fresh "arg"
    bindAll (arg :: entries.map Prod.fst)
    let body ← translateExpr body
    let body ← patternFields arg entries body
    -- the uses of the argument are those of the selections as well
    let uses := body.countUsesIn arg
    modify (·.unbind arg)
    return .abs arg (← wrap arg uses body)
  | .apply f x => do
    let bound := (← scope).isBound
    if f.asIdent = some "fix" && !bound "fix" then return .fix (← translateExpr x)
    else if f.asIdent = some "import" && !bound "import" then importFile (← importTarget x)
    else
      let f ← translateExpr f
      let x ← translateExpr x
      return .app f x
  | .letIn entries body => do
    let bindings ← letBindings entries
    if bindings.isEmpty then translateExpr body
    else
      let xs := bindings.map Prod.fst
      bindAll xs
      let vals ← entryValues entries
      let body ← translateExpr body
      let s ← scope
      unbindAll xs
      counted ((fillIn bindings vals).zip (xs.map s.useCount)) body
  | .ifElse condition body elseBody => do
    let c ← translateExpr condition
    let t ← translateExpr body
    let e ← translateExpr elseBody
    return app2 c t e
  | .assert condition body => do
    let c ← translateExpr condition
    let b ← translateExpr body
    return app2 c b (.app (.fn .throw) (.val (.str "assertion failed")))
  | .withIn space body => do
    let env ← translateExpr space
    let body ← translateExpr body
    withIn env body
  | .int value => ofExcept ((value.map (.val ∘ .int)).mapError .parseError)
  | .float value => ofExcept ((value.map (.val ∘ .float)).mapError .parseError)
  | .uri text => return .val (.str text)
  | .str parts => do return (← translateParts parts none).getD (.val (.str ""))
  | .path text => pathLiteral host text
  | .binOp op lhs rhs => do
    match binOp op with
    | .error text => fail (.unsupportedSyntax ("binop: " ++ text))
    | .ok f =>
      let lhs ← translateExpr lhs
      let rhs ← translateExpr rhs
      return f lhs rhs
  | .unaryOp op e => do return unaryOp op (← translateExpr e)
  | .list items => translateList items
  | .attrSet false entries => do
    let pairs ← entryPairs entries
    return pairs.foldl (fun set p => prim3 .insert set p.1 p.2) (.fn .emptyAttrSet)
  | .attrSet true entries => do
    let (xs, inherits) ← recBindings entries
    bindAll xs
    let vals ← entryValues entries
    let set := inherits.foldl (fun set p => prim3 .insert set p.1 p.2) (.fn .emptyAttrSet)
    modify fun s => xs.foldl Scope.useVar s
    let set := xs.foldl (fun set x => prim3 .insert set (.val (.str x)) (.name x)) set
    let s ← scope
    unbindAll xs
    counted ((xs.zip vals).zip (xs.map s.useCount)) set
  | .select set attrs default => do
    let default ← match default with
      | some d => some <$> translateExpr d
      | none => pure none
    if set.asIdent = some "builtins" && !(← scope).isBound "builtins" then
      match attrs with
      | [] => fail (.unsupportedSyntax "builtins. missing attr")
      | attr :: rest =>
        let x ← ofExcept (attrStaticName attr)
        selectKeys rest default (if isPreludeName x then .name x else .fn (.builtin x))
    else if 2 ≤ attrs.length && default.isSome then
      -- the default stands for the whole path, so the path is tested first
      let s ← fresh "sel"
      let keys ← lowerKeys attrs
      let xs := keys.map Prod.fst
      let present ← hasPathNamed (.name s) xs
      let chain := app2 present (selectChain (.name s) xs) (default.getD (.val .null))
      let body ← letBinds keys chain
      letBind s (← translateExpr set) body
    else selectKeys attrs default (← translateExpr set)
  | .hasAttr set attrs => do
    let set ← translateExpr set
    match attrs with
    | [attr] => return prim2 .hasAttr set (← attrKeyExpr attr)
    | attrs =>
      let keys ← lowerKeys attrs
      letBinds keys (← hasPathNamed set (keys.map Prod.fst))
  | .paren e => translateExpr e
  | .root e => translateExpr e
  | .other => fail (.unsupportedSyntax "unknown expression type")

/-- A key as a term: a dynamic key is an expression. -/
def attrKeyExpr : NixAttr → Translate NixTerm
  | .dynamic e => translateExpr e
  | .ident x => return .val (.str x)
  | .str parts => return .val (.str (literalText parts))

/-- The parts of a string, added up from the left. -/
def translateParts : List StrPart → Option NixTerm → Translate (Option NixTerm)
  | [], acc => return acc
  | .literal l :: parts, acc =>
    let e := .val (.str l)
    translateParts parts (some (acc.elim e (prim2 .add · e)))
  | .interpolation e :: parts, acc => do
    let e := .app (.fn .toString2) (← translateExpr e)
    translateParts parts (some (acc.elim e (prim2 .add · e)))

/-- The last item is translated first. -/
def translateList : List Nix → Translate NixTerm
  | [] => return .name "nil"
  | item :: items => do
    let rest ← translateList items
    let e ← translateExpr item
    return app2 (.name "cons") e rest

/-- The keys and values of a set. -/
def entryPairs : List NixEntry → Translate (List (NixTerm × NixTerm))
  | [] => return []
  | .attrpathValue [attr] value :: entries => do
    let key ← attrKeyExpr attr
    let val ← translateExpr value
    return (key, val) :: (← entryPairs entries)
  | .attrpathValue attrs value :: entries => do
    let key ← ofExcept (attrpathToStr attrs)
    let val ← translateExpr value
    return (.val (.str key), val) :: (← entryPairs entries)
  | .inherit none attrs :: entries => do
    let pairs ← desugarInherit none attrs
    return pairs.map (fun p => (.val (.str p.1), p.2)) ++ (← entryPairs entries)
  | .inherit (some source) attrs :: entries => do
    let pairs ← desugarInherit (some (translateExpr source)) attrs
    return pairs.map (fun p => (.val (.str p.1), p.2)) ++ (← entryPairs entries)

/-- The names that a `let` binds; what is inherited has its value from the scope outside. -/
def letBindings : List NixEntry → Translate (List (Name × Option NixTerm))
  | [] => return []
  | .attrpathValue attrs _ :: entries => do
    let x ← ofExcept (attrpathToStr attrs)
    return (x, none) :: (← letBindings entries)
  | .inherit none attrs :: entries => do
    let pairs ← desugarInherit none attrs
    return pairs.map (fun p => (p.1, some p.2)) ++ (← letBindings entries)
  | .inherit (some source) attrs :: entries => do
    let pairs ← desugarInherit (some (translateExpr source)) attrs
    return pairs.map (fun p => (p.1, some p.2)) ++ (← letBindings entries)

/-- The names that a recursive set binds, and what it inherits. -/
def recBindings : List NixEntry → Translate (List Name × List (NixTerm × NixTerm))
  | [] => return ([], [])
  | .attrpathValue attrs _ :: entries => do
    let x ← ofExcept (attrpathToStr attrs)
    let (xs, inherits) ← recBindings entries
    return (x :: xs, inherits)
  | .inherit none attrs :: entries => do
    let pairs ← desugarInherit none attrs
    let (xs, inherits) ← recBindings entries
    return (xs, pairs.map (fun p => (.val (.str p.1), p.2)) ++ inherits)
  | .inherit (some source) attrs :: entries => do
    let pairs ← desugarInherit (some (translateExpr source)) attrs
    let (xs, inherits) ← recBindings entries
    return (xs, pairs.map (fun p => (.val (.str p.1), p.2)) ++ inherits)

/-- The values of the bindings of a `let` or a recursive set. -/
def entryValues : List NixEntry → Translate (List NixTerm)
  | [] => return []
  | .attrpathValue _ value :: entries => do
    let val ← translateExpr value
    return val :: (← entryValues entries)
  | .inherit _ _ :: entries => entryValues entries

/-- Fresh names for the keys of a path. -/
def lowerKeys : List NixAttr → Translate (List (Name × NixTerm))
  | [] => return []
  | attr :: attrs => do
    let k ← fresh "k"
    let key ← attrKeyExpr attr
    return (k, key) :: (← lowerKeys attrs)

/-- The source takes the default at the first key and drops it if there are more. -/
def selectKeys : List NixAttr → Option NixTerm → NixTerm → Translate NixTerm
  | [], _, result => return result
  | [attr], some d, result => do return prim3 .selectOr result (← attrKeyExpr attr) d
  | attr :: attrs, _, result => do
    let key ← attrKeyExpr attr
    selectKeys attrs none (prim2 .select result key)

/-- Bind the fields of a pattern, the last one first. -/
def patternFields (arg : Name) : List (Name × Option Nix) → NixTerm → Translate NixTerm
  | [], body => return body
  | (field, none) :: rest, body => do
    let body ← patternFields arg rest body
    let uses := (← scope).useCount field
    modify (·.unbind field)
    return .app (.abs field (← wrap field uses body))
      (prim2 .select (.name arg) (.val (.str field)))
  | (field, some d) :: rest, body => do
    let body ← patternFields arg rest body
    let d ← translateExpr d
    let uses := (← scope).useCount field
    modify (·.unbind field)
    return .app (.abs field (← wrap field uses body))
      (prim3 .selectOr (.name arg) (.val (.str field)) d)

end

end

/-! ## Files -/

section

open Translate

variable (host : NixHost)

/-- Parse a source and translate it with `translate`. -/
def parseWith (translate : Nix → Translate NixTerm) (src : String) : Translate NixTerm :=
  match host.parse src with
  | (e :: errors, _) => fail (.parseError ("; ".intercalate (e :: errors)))
  | ([], none) => fail (.parseError "empty program")
  | ([], some e) => translate e

def maxImportDepth : Nat := 256

/-- Read a file and translate it in a scope of its own. -/
def importFile (parseWith : String → Translate NixTerm) (path : String) : Translate NixTerm := do
  let s ← scope
  let full := match s.baseDir with
    | some base => NixPath.join base path
    | none => path
  let isDir : Bool ← ask (.isDir full)
  let full := if isDir then NixPath.join full "default.nix" else full
  if maxImportDepth ≤ s.inProgress.length then
    let canon : Option String ← ask (.canonicalize full)
    fail (.importCycle (canon.getD full))
  else
    let src : Except String String ← ask (.readToString full)
    let src ← ofExcept (src.mapError fun e => .parseError ("import " ++ full ++ ": " ++ e))
    let canon : Option String ← ask (.canonicalize full)
    let canon := canon.getD full
    if canon ∈ s.inProgress then fail (.importCycle canon)
    else
      inScope { Scope.new host with
        baseDir := some (NixPath.parent canon)
        inProgress := canon :: s.inProgress
        searchPaths := s.searchPaths } (parseWith src)

/-- The translation with at most `depth` files inside each other. Every file that is being
imported is one of those in progress, so the bound on those bounds the depth. -/
def translateDepth : Nat → Nix → Translate NixTerm
  | 0 => translateExpr host fun _ => ofOption none
  | depth + 1 => translateExpr host (importFile host (parseWith host (translateDepth depth)))

/-- `nix_to_expr`: no file is open and no base directory is known. -/
def nixToExpr (src : String) (freshCtr : Nat) :
    Query FileQuery FileQuery.Answer (Call NixError (NixTerm × TranslateState)) :=
  parseWith host (translateDepth host (maxImportDepth + 1)) src ⟨.new host, freshCtr⟩

end

end Dnet
