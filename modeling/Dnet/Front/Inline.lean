import Dnet.Front.Ast
import Dnet.Lib.Partial
import Mathlib.Data.List.Perm.Subperm

/-!
# Inlining of definitions

`pass0` (dnx-elab/pass0.rs) checks that no definition refers to itself and then replaces the
names of definitions by their bodies (`resolve`). It passes one set of bound names through the
whole traversal: a definition is inlined with the set of the place where it is used, and leaving
a scope takes its name out of the set, even if an outer scope binds it too. So the result is the
capture-free one exactly if no name is lost or captured on the way (`Ast.Sound`).

The map of definitions is a list, in the order in which the source's map is iterated.
-/

namespace Dnet

open Option (bind_eq_some_iff)
open Lib List

abbrev DefMap (V F : Type) := List (Name × Ast V F)

variable {V F : Type}

/-! ## The cycle check -/

mutual

/-- `free_def_refs`: every occurrence counts, also the ones that are bound. -/
def Ast.defRefs (defs : DefMap V F) : Ast V F → List Name
  | .name n => if (defs.lookup n).isSome then [n] else []
  | .abs _ body => body.defRefs defs
  | .app f x => f.defRefs defs ++ x.defRefs defs
  | .rep e _ _ body => e.defRefs defs ++ body.defRefs defs
  | .era e body => e.defRefs defs ++ body.defRefs defs
  | .fix e => e.defRefs defs
  | .perform _ e => e.defRefs defs
  | .handle comp branches => comp.defRefs defs ++ branches.defRefs defs
  | .val _ | .fn _ => []

def HandlerBranches.defRefs (defs : DefMap V F) : HandlerBranches V F → List Name
  | .nil => []
  | .cons _ _ _ body rest => body.defRefs defs ++ rest.defRefs defs

end

/-- The definitions that the definition of `name` refers to. -/
def refsOf (defs : DefMap V F) (name : Name) : List Name :=
  match defs.lookup name with
  | some body => body.defRefs defs
  | none => []

/-- Returns the names visited so far. The source takes `name` out of `visiting` again when it
is done. -/
def dfsCheck (defs : DefMap V F) :
    Nat → Name → List Name → List Name → Call LinError (List Name)
  | 0, _, _, _ => .pending
  | fuel + 1, name, visiting, visited =>
    if name ∈ visiting then .error (.mutualRecursion visiting)
    else if name ∈ visited then .ok visited
    else do
      let visited ← (refsOf defs name).foldlM
        (fun visited dep => dfsCheck defs fuel dep (name :: visiting) visited) visited
      return name :: visited

def topoCheck (defs : DefMap V F) (fuel : Nat) : Call LinError (List Name) :=
  defs.foldlM (fun visited d =>
    if d.1 ∈ visited then .ok visited else dfsCheck defs fuel d.1 [] visited) []

/-! ## Resolution -/

/-- The set of bound names. -/
abbrev Bound := Name → Bool

def Bound.insert (bound : Bound) (x : Name) : Bound := fun y => y = x || bound y

def Bound.remove (bound : Bound) (x : Name) : Bound := fun y => y != x && bound y

mutual

/-- `resolve`, over the call that resolves the body of a definition. -/
def Ast.resolveWith (defs : DefMap V F) (call : Ast V F → Bound → Call LinError (Ast V F × Bound)) :
    Ast V F → Bound → Call LinError (Ast V F × Bound)
  | .name n, bound =>
    if bound n then .ok (.name n, bound)
    else match defs.lookup n with
      | some body => call body bound
      | none => .ok (.name n, bound)
  | .abs x body, bound => do
    let (body, bound) ← body.resolveWith defs call (bound.insert x)
    return (.abs x body, bound.remove x)
  | .app f x, bound => do
    let (f, bound) ← f.resolveWith defs call bound
    let (x, bound) ← x.resolveWith defs call bound
    return (.app f x, bound)
  | .rep e a b body, bound => do
    let (e, bound) ← e.resolveWith defs call bound
    let (body, bound) ← body.resolveWith defs call ((bound.insert a).insert b)
    return (.rep e a b body, (bound.remove a).remove b)
  | .era e body, bound => do
    let (e, bound) ← e.resolveWith defs call bound
    let (body, bound) ← body.resolveWith defs call bound
    return (.era e body, bound)
  | .fix e, bound => do
    let (e, bound) ← e.resolveWith defs call bound
    return (.fix e, bound)
  | .perform label e, bound => do
    let (e, bound) ← e.resolveWith defs call bound
    return (.perform label e, bound)
  | .handle comp branches, bound => do
    let (comp, bound) ← comp.resolveWith defs call bound
    let (branches, bound) ← branches.resolveWith defs call bound
    return (.handle comp branches, bound)
  | .val v, bound => .ok (.val v, bound)
  | .fn f, bound => .ok (.fn f, bound)

def HandlerBranches.resolveWith (defs : DefMap V F)
    (call : Ast V F → Bound → Call LinError (Ast V F × Bound)) :
    HandlerBranches V F → Bound → Call LinError (HandlerBranches V F × Bound)
  | .nil, bound => .ok (.nil, bound)
  | .cons label a k body rest, bound => do
    let (body, bound) ← body.resolveWith defs call ((bound.insert a).insert k)
    let (rest, bound) ← rest.resolveWith defs call ((bound.remove a).remove k)
    return (.cons label a k body rest, bound)

end

/-- The fuel bounds the nesting of definitions. -/
def Pass0.resolve (defs : DefMap V F) : Nat → Ast V F → Bound → Call LinError (Ast V F × Bound)
  | 0 => Ast.resolveWith defs fun _ _ => .pending
  | fuel + 1 => Ast.resolveWith defs (Pass0.resolve defs fuel)

def pass0 (fuel : Nat) (defs : DefMap V F) (expr : Ast V F) : Call LinError (Ast V F) := do
  let _ ← topoCheck defs fuel
  let (r, _) ← Pass0.resolve defs fuel expr fun _ => false
  return r

/-! ## The capture-free expansion -/

mutual

/-- Terms up to the names of their binders: a bound name is its distance to its binder. -/
inductive Nameless (V F : Type) where
  | bound (i : Nat)
  | free (x : Name)
  | abs (body : Nameless V F)
  | app (f x : Nameless V F)
  | rep (e body : Nameless V F)
  | era (e body : Nameless V F)
  | fix (inner : Nameless V F)
  | val (v : V)
  | fn (f : F)
  | perform (label : Name) (e : Nameless V F)
  | handle (comp : Nameless V F) (branches : NamelessBranches V F)

inductive NamelessBranches (V F : Type) where
  | nil
  | cons (label : Name) (body : Nameless V F) (rest : NamelessBranches V F)

end

/-- A name in the scope of the binders `Γ`, innermost first. -/
def Nameless.ofName (Γ : List Name) (x : Name) : Nameless V F :=
  if x ∈ Γ then .bound (Γ.idxOf x) else .free x

mutual

/-- The expansion of the definitions, over the expansion of the body of a definition. A
definition is expanded in the empty scope, so its names need no shift. -/
def Ast.expandWith (defs : DefMap V F) (call : Ast V F → Option (Nameless V F)) :
    Ast V F → List Name → Option (Nameless V F)
  | .name n, Γ =>
    if n ∈ Γ then some (.ofName Γ n)
    else match defs.lookup n with
      | some body => call body
      | none => some (.free n)
  | .abs x body, Γ => do return .abs (← body.expandWith defs call (x :: Γ))
  | .app f x, Γ => do return .app (← f.expandWith defs call Γ) (← x.expandWith defs call Γ)
  | .rep e a b body, Γ => do
    return .rep (← e.expandWith defs call Γ) (← body.expandWith defs call (b :: a :: Γ))
  | .era e body, Γ => do
    return .era (← e.expandWith defs call Γ) (← body.expandWith defs call Γ)
  | .fix inner, Γ => do return .fix (← inner.expandWith defs call Γ)
  | .val v, _ => some (.val v)
  | .fn f, _ => some (.fn f)
  | .perform label e, Γ => do return .perform label (← e.expandWith defs call Γ)
  | .handle comp branches, Γ => do
    return .handle (← comp.expandWith defs call Γ) (← branches.expandWith defs call Γ)

def HandlerBranches.expandWith (defs : DefMap V F) (call : Ast V F → Option (Nameless V F)) :
    HandlerBranches V F → List Name → Option (NamelessBranches V F)
  | .nil, _ => some .nil
  | .cons label a k body rest, Γ => do
    return .cons label (← body.expandWith defs call (k :: a :: Γ)) (← rest.expandWith defs call Γ)

end

def expand (defs : DefMap V F) : Nat → Ast V F → List Name → Option (Nameless V F)
  | 0, e, Γ => e.expandWith defs (fun _ => none) Γ
  | fuel + 1, e, Γ => e.expandWith defs (fun body => expand defs fuel body []) Γ

/-- Every name of `e` that is free at its occurrence and defined is replaced by the expanded
definition. -/
def Expands (defs : DefMap V F) (e : Ast V F) (r : Nameless V F) : Prop :=
  ∃ fuel, expand defs fuel e [] = some r

mutual

/-- The term without the names of its binders; two terms are α-equal if these are equal. -/
def Ast.nameless : Ast V F → List Name → Nameless V F
  | .name n, Γ => .ofName Γ n
  | .abs x body, Γ => .abs (body.nameless (x :: Γ))
  | .app f x, Γ => .app (f.nameless Γ) (x.nameless Γ)
  | .rep e a b body, Γ => .rep (e.nameless Γ) (body.nameless (b :: a :: Γ))
  | .era e body, Γ => .era (e.nameless Γ) (body.nameless Γ)
  | .fix inner, Γ => .fix (inner.nameless Γ)
  | .val v, _ => .val v
  | .fn f, _ => .fn f
  | .perform label e, Γ => .perform label (e.nameless Γ)
  | .handle comp branches, Γ => .handle (comp.nameless Γ) (branches.nameless Γ)

def HandlerBranches.nameless : HandlerBranches V F → List Name → NamelessBranches V F
  | .nil, _ => .nil
  | .cons label a k body rest, Γ =>
    .cons label (body.nameless (k :: a :: Γ)) (rest.nameless Γ)

end

/-! ## When nothing is lost or captured -/

mutual

/-- Resolving the term keeps the meaning of its names: `Γ` are the binders around it in its
own definition, `outer` those around the place where that definition is inlined, and the last
two arguments are the sets of bound names before and after. -/
def Ast.SoundWith (defs : DefMap V F) (call : Ast V F → List Name → Bound → Bound → Prop) :
    Ast V F → (Γ outer : List Name) → Bound → Bound → Prop
  | .name n, Γ, outer, bound, bound' =>
    if n ∈ Γ then (bound n = true ∨ defs.lookup n = none) ∧ bound' = bound
    else match defs.lookup n with
      | some body => bound n = false ∧ call body (Γ ++ outer) bound bound'
      | none => n ∉ outer ∧ bound' = bound
  | .abs x body, Γ, outer, bound, bound' =>
    ∃ b1, body.SoundWith defs call (x :: Γ) outer (bound.insert x) b1 ∧ bound' = b1.remove x
  | .app f x, Γ, outer, bound, bound' =>
    ∃ b1, f.SoundWith defs call Γ outer bound b1 ∧ x.SoundWith defs call Γ outer b1 bound'
  | .rep e a b body, Γ, outer, bound, bound' =>
    ∃ b1 b2, e.SoundWith defs call Γ outer bound b1 ∧
      body.SoundWith defs call (b :: a :: Γ) outer ((b1.insert a).insert b) b2 ∧
      bound' = (b2.remove a).remove b
  | .era e body, Γ, outer, bound, bound' =>
    ∃ b1, e.SoundWith defs call Γ outer bound b1 ∧ body.SoundWith defs call Γ outer b1 bound'
  | .fix inner, Γ, outer, bound, bound' => inner.SoundWith defs call Γ outer bound bound'
  | .val _, _, _, bound, bound' | .fn _, _, _, bound, bound' => bound' = bound
  | .perform _ e, Γ, outer, bound, bound' => e.SoundWith defs call Γ outer bound bound'
  | .handle comp branches, Γ, outer, bound, bound' =>
    ∃ b1, comp.SoundWith defs call Γ outer bound b1 ∧ branches.SoundWith defs call Γ outer b1 bound'

def HandlerBranches.SoundWith (defs : DefMap V F)
    (call : Ast V F → List Name → Bound → Bound → Prop) :
    HandlerBranches V F → (Γ outer : List Name) → Bound → Bound → Prop
  | .nil, _, _, bound, bound' => bound' = bound
  | .cons _ a k body rest, Γ, outer, bound, bound' =>
    ∃ b1, body.SoundWith defs call (k :: a :: Γ) outer ((bound.insert a).insert k) b1 ∧
      rest.SoundWith defs call Γ outer ((b1.remove a).remove k) bound'

end

def SoundIn (defs : DefMap V F) : Nat → Ast V F → (Γ outer : List Name) → Bound → Bound → Prop
  | 0, e, Γ, outer, bound, bound' => e.SoundWith defs (fun _ _ _ _ => False) Γ outer bound bound'
  | fuel + 1, e, Γ, outer, bound, bound' =>
    e.SoundWith defs (fun body => SoundIn defs fuel body []) Γ outer bound bound'

/-- No name of the expansion is lost or captured: where a name is bound in its own definition,
a definition of that name must find it in the set; where it is free, a definition of it must not
find it in the set, and without a definition no binder around may have that name. -/
def Ast.Sound (defs : DefMap V F) (e : Ast V F) : Prop :=
  ∃ fuel bound, SoundIn defs fuel e [] [] (fun _ => false) bound

/-- The definitions can be numbered such that each one refers to lower ones only, counting
bound occurrences as well. -/
def Acyclic (defs : DefMap V F) : Prop :=
  ∃ rank : Name → Nat, ∀ n, ∀ m ∈ refsOf defs n, rank m < rank n

/-! ## Names -/

variable {Γ : List Name} {x : Name}

theorem ofName_append_of_mem (h : x ∈ Γ) (outer : List Name) :
    (Nameless.ofName (Γ ++ outer) x : Nameless V F) = .ofName Γ x := by
  rw [Nameless.ofName, Nameless.ofName, if_pos h, if_pos (mem_append_left _ h),
    idxOf_append_of_mem h]

theorem ofName_eq_free (h : x ∉ Γ) : (Nameless.ofName Γ x : Nameless V F) = .free x := if_neg h

theorem ofName_eq_bound (h : x ∈ Γ) :
    (Nameless.ofName Γ x : Nameless V F) = .bound (Γ.idxOf x) := if_pos h

theorem eq_name_of_nameless {r : Ast V F} {n : Name} (hn : n ∈ Γ)
    (h : r.nameless Γ = .ofName Γ n) : r = .name n := by
  rw [ofName_eq_bound hn] at h
  cases r with
  | name x =>
    rw [Ast.nameless] at h
    by_cases hx : x ∈ Γ
    · rw [ofName_eq_bound hx] at h
      rw [(idxOf_inj hx).mp (Nameless.bound.inj h)]
    · rw [ofName_eq_free hx] at h
      cases h
  | _ => cases h

/-! ## A sound resolution is the expansion -/

section

variable {defs : DefMap V F} {callS : Ast V F → List Name → Bound → Bound → Prop}
  {callR : Ast V F → Bound → Call LinError (Ast V F × Bound)}
  {callE : Ast V F → Option (Nameless V F)}

/-- What the call for a definition gives if it is sound. -/
def CallSound (callS : Ast V F → List Name → Bound → Bound → Prop)
    (callR : Ast V F → Bound → Call LinError (Ast V F × Bound))
    (callE : Ast V F → Option (Nameless V F)) : Prop :=
  ∀ body outer b b', callS body outer b b' →
    ∃ r, callR body b = .ok (r, b') ∧ callE body = some (r.nameless outer)

mutual

theorem Ast.SoundWith.resolves (hcall : CallSound callS callR callE) :
    ∀ (e : Ast V F) {Γ outer : List Name} {b b' : Bound}, e.SoundWith defs callS Γ outer b b' →
      ∃ r, e.resolveWith defs callR b = .ok (r, b') ∧
        e.expandWith defs callE Γ = some (r.nameless (Γ ++ outer))
  | .name n, Γ, outer, b, b', h => by
    unfold Ast.SoundWith at h
    unfold Ast.resolveWith Ast.expandWith
    split at h
    · next hn =>
      obtain ⟨hb, rfl⟩ := h
      refine ⟨.name n, ?_, by rw [if_pos hn, Ast.nameless, ofName_append_of_mem hn]⟩
      rcases hb with hb | hb
      · rw [if_pos hb]
      · rw [hb]
        exact ite_self _
    · next hn =>
      split at h
      · next body hbody =>
        obtain ⟨hb, hc⟩ := h
        rw [if_neg (by simp [hb]), if_neg hn]
        exact hcall body _ b b' hc
      · next hnone =>
        obtain ⟨hout, rfl⟩ := h
        have hfree : n ∉ Γ ++ outer := by simp [hn, hout]
        exact ⟨.name n, ite_self _, by rw [if_neg hn, Ast.nameless, ofName_eq_free hfree]⟩
  | .abs x body, Γ, outer, b, b', h => by
    obtain ⟨b1, hbody, rfl⟩ := h
    obtain ⟨r, hr, he⟩ := Ast.SoundWith.resolves hcall body hbody
    exact ⟨.abs x r, Call.bind_eq_ok.mpr ⟨_, hr, rfl⟩, by simp [Ast.expandWith, he, Ast.nameless]⟩
  | .app f x, Γ, outer, b, b', h | .era f x, Γ, outer, b, b', h | .handle f x, Γ, outer, b, b', h => by
    obtain ⟨b1, hf, hx⟩ := h
    obtain ⟨r, hr, he⟩ := hf.resolves hcall f
    obtain ⟨s, hs, hd⟩ := hx.resolves hcall x
    exact ⟨_, Call.bind_eq_ok.mpr ⟨_, hr, Call.bind_eq_ok.mpr ⟨_, hs, rfl⟩⟩,
      by simp [Ast.expandWith, he, hd, Ast.nameless]⟩
  | .rep e a c body, Γ, outer, b, b', h => by
    obtain ⟨b1, b2, hf, hx, rfl⟩ := h
    obtain ⟨r, hr, he⟩ := Ast.SoundWith.resolves hcall e hf
    obtain ⟨s, hs, hd⟩ := Ast.SoundWith.resolves hcall body hx
    exact ⟨.rep r a c s, Call.bind_eq_ok.mpr ⟨_, hr, Call.bind_eq_ok.mpr ⟨_, hs, rfl⟩⟩,
      by simp [Ast.expandWith, he, hd, Ast.nameless]⟩
  | .fix inner, Γ, outer, b, b', h | .perform _ inner, Γ, outer, b, b', h => by
    obtain ⟨r, hr, he⟩ := Ast.SoundWith.resolves hcall inner h
    exact ⟨_, Call.bind_eq_ok.mpr ⟨_, hr, rfl⟩, by simp [Ast.expandWith, he, Ast.nameless]⟩
  | .val _, Γ, outer, b, b', h | .fn _, Γ, outer, b, b', h => by
    cases h
    exact ⟨_, rfl, rfl⟩

theorem HandlerBranches.SoundWith.resolves (hcall : CallSound callS callR callE) :
    ∀ (bs : HandlerBranches V F) {Γ outer : List Name} {b b' : Bound},
      bs.SoundWith defs callS Γ outer b b' → ∃ r, bs.resolveWith defs callR b = .ok (r, b') ∧
          bs.expandWith defs callE Γ = some (r.nameless (Γ ++ outer))
  | .nil, Γ, outer, b, b', h => by
    cases h
    exact ⟨.nil, rfl, rfl⟩
  | .cons label a k body rest, Γ, outer, b, b', h => by
    obtain ⟨b1, hf, hx⟩ := h
    obtain ⟨r, hr, he⟩ := Ast.SoundWith.resolves hcall body hf
    obtain ⟨s, hs, hd⟩ := HandlerBranches.SoundWith.resolves hcall rest hx
    exact ⟨.cons label a k r s, Call.bind_eq_ok.mpr ⟨_, hr, Call.bind_eq_ok.mpr ⟨_, hs, rfl⟩⟩,
      by simp [HandlerBranches.expandWith, he, hd, HandlerBranches.nameless]⟩

end

end

variable {defs : DefMap V F}

theorem SoundIn.resolves : ∀ (fuel : Nat), CallSound
    (fun body => SoundIn defs fuel body []) (Pass0.resolve defs fuel)
    fun body => expand defs fuel body []
  | 0, body, _, _, _, h => by
    have hnone : CallSound (fun _ _ _ _ => False) (fun _ _ => Call.pending) fun _ : Ast V F => none :=
      nofun
    exact Ast.SoundWith.resolves hnone body h
  | fuel + 1, body, _, _, _, h => Ast.SoundWith.resolves (SoundIn.resolves fuel) body h

/-! ## Leaving a scope -/

def Bound.Le (b b' : Bound) : Prop := ∀ y, b y = true → b' y = true

theorem Bound.Le.refl (b : Bound) : b.Le b := fun _ hy => hy

theorem Bound.Le.remove {b b' : Bound} (h : b.Le (b'.insert x)) : (b.remove x).Le b' := by
  intro y hy
  simp only [Bound.remove, Bool.and_eq_true, bne_iff_ne] at hy
  simpa [Bound.insert, hy.1] using h y hy.2

theorem Bound.Le.remove_pair {b b' : Bound} {x y : Name} (h : b.Le ((b'.insert x).insert y)) :
    ((b.remove x).remove y).Le b' := by
  intro z hz
  simp only [Bound.remove, Bool.and_eq_true, bne_iff_ne] at hz
  simpa [Bound.insert, hz.1, hz.2.1] using h z hz.2.2

theorem Bound.Le.trans {b b' b'' : Bound} (h : b.Le b') (h' : b'.Le b'') : b.Le b'' :=
  fun y hy => h' y (h y hy)

/-! ## The resolution that is the expansion is sound -/

/-- What makes the call for a definition sound. It only takes names out of the set. -/
structure CallExact (defs : DefMap V F) (callS : Ast V F → List Name → Bound → Bound → Prop)
    (callR : Ast V F → Bound → Call LinError (Ast V F × Bound))
    (callE : Ast V F → Option (Nameless V F)) : Prop where
  sound : ∀ {body outer b b' r}, (∀ y, b y = true → y ∈ outer) → callR body b = .ok (r, b') →
    callE body = some (r.nameless outer) → callS body outer b b' ∧ b'.Le b
  name : ∀ {n body b b'}, defs.lookup n = some body → callR body b ≠ .ok (.name n, b')
  closed : ∀ {body i}, callE body ≠ some (.bound i)

section

variable {defs : DefMap V F} {callS : Ast V F → List Name → Bound → Bound → Prop}
  {callR : Ast V F → Bound → Call LinError (Ast V F × Bound)}
  {callE : Ast V F → Option (Nameless V F)}

theorem CallExact.name_sound (hcall : CallExact defs callS callR callE) {n : Name}
    {Γ outer : List Name} {b b' : Bound} {r : Ast V F} (hb : ∀ y, b y = true → y ∈ Γ ++ outer)
    (hr : (Ast.name n).resolveWith defs callR b = .ok (r, b'))
    (he : (Ast.name n).expandWith defs callE Γ = some (r.nameless (Γ ++ outer))) :
    (Ast.name n).SoundWith defs callS Γ outer b b' ∧ b'.Le b := by
  unfold Ast.resolveWith at hr
  unfold Ast.expandWith at he
  unfold Ast.SoundWith
  by_cases hn : n ∈ Γ
  · rw [if_pos hn] at he ⊢
    split at hr
    · next hbn =>
      cases hr
      exact ⟨⟨.inl hbn, rfl⟩, .refl b⟩
    · split at hr
      · next body hbody =>
        -- the definition would have to be the bound name itself
        rw [← ofName_append_of_mem hn outer] at he
        have := eq_name_of_nameless (mem_append_left _ hn) (Option.some.inj he).symm
        subst this
        exact (hcall.name hbody hr).elim
      · next hnone =>
        cases hr
        exact ⟨⟨.inr hnone, rfl⟩, .refl b⟩
  · rw [if_neg hn] at he ⊢
    cases hl : defs.lookup n with
    | some body =>
      rw [hl] at hr he
      dsimp only at hr he ⊢
      split at hr
      · next hbn =>
        cases hr
        rw [Ast.nameless, ofName_eq_bound (hb n hbn)] at he
        exact (hcall.closed he).elim
      · next hbn =>
        obtain ⟨hs, hle⟩ := hcall.sound hb hr he
        exact ⟨⟨by simpa using hbn, hs⟩, hle⟩
    | none =>
      rw [hl] at hr he
      rw [ite_self] at hr
      cases hr
      refine ⟨⟨fun hout => ?_, rfl⟩, .refl b⟩
      rw [Ast.nameless, ofName_eq_bound (mem_append_right _ hout)] at he
      cases he

theorem subset_insert {Γ outer : List Name} {b : Bound} (hb : ∀ y, b y = true → y ∈ Γ ++ outer)
    (x : Name) : ∀ y, b.insert x y = true → y ∈ (x :: Γ) ++ outer := by
  intro y hy
  simp only [Bound.insert, Bool.or_eq_true, decide_eq_true_eq] at hy
  rcases hy with rfl | hy
  · exact mem_cons_self
  · exact mem_cons_of_mem _ (hb y hy)

mutual

theorem Ast.soundWith (hcall : CallExact defs callS callR callE) : ∀ (e : Ast V F)
    {Γ outer : List Name} {b b' : Bound} {r : Ast V F}, (∀ y, b y = true → y ∈ Γ ++ outer) →
      e.resolveWith defs callR b = .ok (r, b') →
        e.expandWith defs callE Γ = some (r.nameless (Γ ++ outer)) →
          e.SoundWith defs callS Γ outer b b' ∧ b'.Le b
  | .name n, _, _, _, _, _, hb, hr, he => hcall.name_sound hb hr he
  | .val _, _, _, _, _, _, _, hr, _ | .fn _, _, _, _, _, _, _, hr, _ => by
    cases hr
    exact ⟨rfl, .refl _⟩
  | .abs x body, Γ, outer, b, b', r, hb, hr, he => by
    obtain ⟨⟨s, b1⟩, hs, hr⟩ := Call.bind_eq_ok.mp hr
    cases hr
    obtain ⟨t, ht, he⟩ := bind_eq_some_iff.mp he
    cases he
    obtain ⟨h, hle⟩ := body.soundWith hcall (subset_insert hb x) hs ht
    exact ⟨⟨b1, h, rfl⟩, hle.remove⟩
  | .app f x, Γ, outer, b, b', r, hb, hr, he | .era f x, _, _, _, _, _, hb, hr, he
  | .handle f x, _, _, _, _, _, hb, hr, he => by
    obtain ⟨⟨s, b1⟩, hs, hr⟩ := Call.bind_eq_ok.mp hr
    obtain ⟨⟨u, b2⟩, hu, hr⟩ := Call.bind_eq_ok.mp hr
    cases hr
    obtain ⟨t, ht, he⟩ := bind_eq_some_iff.mp he
    obtain ⟨v, hv, he⟩ := bind_eq_some_iff.mp he
    cases he
    obtain ⟨h, hle⟩ := f.soundWith hcall hb hs ht
    obtain ⟨h', hle'⟩ := x.soundWith hcall (fun y hy => hb y (hle y hy)) hu hv
    exact ⟨⟨b1, h, h'⟩, hle'.trans hle⟩
  | .rep f a c x, Γ, outer, b, b', r, hb, hr, he => by
    obtain ⟨⟨s, b1⟩, hs, hr⟩ := Call.bind_eq_ok.mp hr
    obtain ⟨⟨u, b2⟩, hu, hr⟩ := Call.bind_eq_ok.mp hr
    cases hr
    obtain ⟨t, ht, he⟩ := bind_eq_some_iff.mp he
    obtain ⟨v, hv, he⟩ := bind_eq_some_iff.mp he
    cases he
    obtain ⟨h, hle⟩ := f.soundWith hcall hb hs ht
    obtain ⟨h', hle'⟩ := x.soundWith hcall
      (subset_insert (subset_insert (fun y hy => hb y (hle y hy)) a) c) hu hv
    exact ⟨⟨b1, b2, h, h', rfl⟩, hle'.remove_pair.trans hle⟩
  | .fix inner, Γ, outer, b, b', r, hb, hr, he | .perform _ inner, _, _, _, _, _, hb, hr, he => by
    obtain ⟨⟨s, b1⟩, hs, hr⟩ := Call.bind_eq_ok.mp hr
    cases hr
    obtain ⟨t, ht, he⟩ := bind_eq_some_iff.mp he
    cases he
    exact inner.soundWith hcall hb hs ht

theorem HandlerBranches.soundWith (hcall : CallExact defs callS callR callE) :
    ∀ (bs : HandlerBranches V F) {Γ outer : List Name} {b b' : Bound} {r : HandlerBranches V F},
      (∀ y, b y = true → y ∈ Γ ++ outer) → bs.resolveWith defs callR b = .ok (r, b') →
        bs.expandWith defs callE Γ = some (r.nameless (Γ ++ outer)) →
          bs.SoundWith defs callS Γ outer b b' ∧ b'.Le b
  | .nil, _, _, _, _, _, _, hr, _ => by
    cases hr
    exact ⟨rfl, .refl _⟩
  | .cons _ a k body rest, Γ, outer, b, b', r, hb, hr, he => by
    obtain ⟨⟨s, b1⟩, hs, hr⟩ := Call.bind_eq_ok.mp hr
    obtain ⟨⟨u, b2⟩, hu, hr⟩ := Call.bind_eq_ok.mp hr
    cases hr
    obtain ⟨t, ht, he⟩ := bind_eq_some_iff.mp he
    obtain ⟨v, hv, he⟩ := bind_eq_some_iff.mp he
    cases he
    obtain ⟨h, hle⟩ := body.soundWith hcall (subset_insert (subset_insert hb a) k) hs ht
    obtain ⟨h', hle'⟩ := rest.soundWith hcall (fun y hy => hb y (hle.remove_pair y hy)) hu hv
    exact ⟨⟨b1, h, h'⟩, hle'.trans hle.remove_pair⟩

end

end

/-! ## The cycle check finds the cycles -/

/-- Every name stands before the names it refers to. -/
def Ordered (defs : DefMap V F) : List Name → Prop
  | [] => True
  | v :: rest => (∀ m ∈ refsOf defs v, m ∈ rest) ∧ Ordered defs rest

/-- The number of names from the last occurrence of `m` on. -/
def rankIn : List Name → Name → Nat
  | [], _ => 0
  | _ :: rest, m => if m ∈ rest then rankIn rest m else rest.length + 1

theorem rankIn_le_length : ∀ {l : List Name} {m : Name}, m ∈ l → rankIn l m ≤ l.length
  | v :: rest, m, _ => by
    unfold rankIn
    split
    · next h => exact Nat.le_succ_of_le (rankIn_le_length h)
    · exact Nat.le_refl _

section

variable {defs : DefMap V F} {α : Type} {callS : Ast V F → List Name → Bound → Bound → Prop}
  {rank : Name → Nat}

theorem Ordered.refs_mem : ∀ {l : List Name} {n : Name}, Ordered defs l →
    n ∈ l → ∀ m ∈ refsOf defs n, m ∈ l
  | v :: rest, n, h, hn, m, hm => by
    rcases mem_cons.mp hn with rfl | hn
    · exact mem_cons_of_mem _ (h.1 m hm)
    · exact mem_cons_of_mem _ (h.2.refs_mem hn m hm)

theorem Ordered.rankIn_lt : ∀ {l : List Name} {n : Name}, Ordered defs l →
    n ∈ l → ∀ m ∈ refsOf defs n, rankIn l m < rankIn l n
  | v :: rest, n, h, hn, m, hm => by
    by_cases hr : n ∈ rest
    · rw [rankIn, rankIn, if_pos hr, if_pos (h.2.refs_mem hr m hm)]
      exact h.2.rankIn_lt hr m hm
    · have hv : n = v := (mem_cons.mp hn).resolve_right hr
      subst hv
      have hmem := h.1 m hm
      rw [rankIn, rankIn, if_neg hr, if_pos hmem]
      exact Nat.lt_succ_of_le (rankIn_le_length hmem)

/-- What a part of the check does to the names visited so far. -/
structure Visits (defs : DefMap V F) (names visited visited' : List Name) : Prop where
  ordered : Ordered defs visited → Ordered defs visited'
  subset : ∀ v ∈ visited, v ∈ visited'
  mem : ∀ n ∈ names, n ∈ visited'

theorem foldlM_visits {name : α → Name} {f : List Name → α → Call LinError (List Name)}
    (hf : ∀ a visited visited', f visited a = .ok visited' → Visits defs [name a] visited visited')
    : ∀ {l : List α} {visited visited' : List Name}, l.foldlM f visited = .ok visited' →
      Visits defs (l.map name) visited visited'
  | [], _, _, h => by
    cases h
    exact ⟨id, fun _ hv => hv, nofun⟩
  | a :: l, visited, visited', h => by
    rw [foldlM_cons] at h
    obtain ⟨mid, ha, h⟩ := Call.bind_eq_ok.mp h
    have hstep := hf a visited mid ha
    have hrest := foldlM_visits hf h
    exact ⟨fun ho => hrest.ordered (hstep.ordered ho), fun v hv => hrest.subset v (hstep.subset v hv),
      forall_mem_cons.mpr ⟨hrest.subset _ (hstep.mem _ mem_cons_self), hrest.mem⟩⟩

theorem dfsCheck_visits : ∀ {fuel : Nat} {name : Name} {visiting visited visited' : List Name},
      dfsCheck defs fuel name visiting visited = .ok visited' → Visits defs [name] visited visited'
  | fuel + 1, name, visiting, visited, visited', h => by
    unfold dfsCheck at h
    split at h
    · cases h
    · split at h
      · next hm =>
        cases h
        exact ⟨id, fun _ hv => hv, fun n hn => mem_singleton.mp hn ▸ hm⟩
      · obtain ⟨mid, hmid, h⟩ := Call.bind_eq_ok.mp h
        cases h
        have hdeps : Visits defs ((refsOf defs name).map id) visited mid :=
          foldlM_visits (fun _ _ _ h => dfsCheck_visits h) hmid
        rw [map_id] at hdeps
        exact ⟨fun ho => ⟨hdeps.mem, hdeps.ordered ho⟩,
          fun v hv => mem_cons_of_mem _ (hdeps.subset v hv),
          fun n hn => mem_singleton.mp hn ▸ mem_cons_self⟩

theorem topoCheck_acyclic {fuel : Nat} {visited : List Name} (h : topoCheck defs fuel = .ok visited) :
    Acyclic defs := by
  have hall : Visits defs (defs.map Prod.fst) [] visited := by
    refine foldlM_visits (fun d visited visited' hd => ?_) h
    split at hd
    · next hm =>
      cases hd
      exact ⟨id, fun _ hv => hv, fun n hn => mem_singleton.mp hn ▸ hm⟩
    · exact dfsCheck_visits hd
  have hord := hall.ordered trivial
  refine ⟨rankIn visited, fun n m hm => hord.rankIn_lt (hall.mem n ?_) m hm⟩
  unfold refsOf at hm
  split at hm
  · next body hbody =>
    obtain ⟨l1, l2, rfl, -⟩ := lookup_eq_some_iff.mp hbody
    simp
  · cases hm

/-- The call returns, and an error is a cycle. -/
def Settled (defs : DefMap V F) {β : Type} (x : Call LinError β) : Prop :=
  (∃ b, x = .ok b) ∨ ¬Acyclic defs ∧ ∃ names, x = .error (.mutualRecursion names)

theorem Settled.bind {β γ : Type} {x : Call LinError β} {f : β → Call LinError γ}
    (hx : Settled defs x) (hf : ∀ b, Settled defs (f b)) : Settled defs (x >>= f) := by
  rcases hx with ⟨b, rfl⟩ | ⟨hc, names, rfl⟩
  · exact hf b
  · exact .inr ⟨hc, names, rfl⟩

theorem foldlM_settles {β : Type} {f : β → α → Call LinError β} : ∀ {l : List α},
    (∀ a ∈ l, ∀ b, Settled defs (f b a)) → ∀ b, Settled defs (l.foldlM f b)
  | [], _, b => .inl ⟨b, rfl⟩
  | a :: l, h, b => by
    rw [foldlM_cons]
    exact (h a mem_cons_self b).bind (foldlM_settles fun a' ha' => h a' (mem_cons_of_mem a ha'))

-- The names in progress are distinct and defined, so their number bounds the nested calls; each
-- of them refers to the next one.
theorem dfsCheck_settles : ∀ {fuel : Nat} {name : Name} {visiting : List Name}, visiting.Nodup →
    visiting ⊆ defs.map Prod.fst → defs.length < fuel + visiting.length →
      (∀ rank : Name → Nat, (∀ n, ∀ m ∈ refsOf defs n, rank m < rank n) →
        ∀ v ∈ visiting, rank name < rank v) →
          ∀ visited, Settled defs (dfsCheck defs fuel name visiting visited)
  | 0, _, visiting, hnd, hsub, hlen, _, _ => by
    have hle := (subperm_of_subset hnd hsub).length_le
    rw [length_map] at hle
    omega
  | fuel + 1, name, visiting, hnd, hsub, hlen, hrank, visited => by
    unfold dfsCheck
    split
    · next hmem =>
      exact .inr ⟨fun ⟨rank, h⟩ => Nat.lt_irrefl _ (hrank rank h name hmem), visiting, rfl⟩
    · next hnew =>
      split
      · exact .inl ⟨visited, rfl⟩
      · refine (foldlM_settles (fun m hm visited => ?_) visited).bind fun mid => .inl ⟨_, rfl⟩
        have hname : name ∈ defs.map Prod.fst := by
          unfold refsOf at hm
          split at hm
          · next hbody =>
            obtain ⟨l1, l2, rfl, -⟩ := lookup_eq_some_iff.mp hbody
            simp
          · cases hm
        refine dfsCheck_settles (nodup_cons.mpr ⟨hnew, hnd⟩) (cons_subset.mpr ⟨hname, hsub⟩)
          (by rw [length_cons]; omega) (fun rank h => ?_) visited
        have hlt := h name m hm
        exact forall_mem_cons.mpr ⟨hlt, fun v hv => Nat.lt_trans hlt (hrank rank h v hv)⟩

theorem topoCheck_settles {fuel : Nat} (hfuel : defs.length < fuel) :
    Settled defs (topoCheck defs fuel) := by
  refine foldlM_settles (fun d _ visited => ?_) []
  split
  · exact .inl ⟨visited, rfl⟩
  · exact dfsCheck_settles nodup_nil (nil_subset _) hfuel (fun _ _ => nofun) visited

theorem Acyclic.topoCheck (h : Acyclic defs) :
    ∃ k, ∀ fuel, k ≤ fuel → ∃ visited, topoCheck defs fuel = .ok visited :=
  ⟨defs.length + 1, fun _ hfuel => (topoCheck_settles hfuel).resolve_right fun hc => hc.1 h⟩

/-! ## Definitions that are names -/

theorem resolveWith_eq_name {call : Ast V F → Bound → Call LinError (Ast V F × Bound)} {t : Ast V F}
    {b b' : Bound} {x : Name} (h : t.resolveWith defs call b = .ok (.name x, b')) :
    ∃ y, t = .name y ∧
      (x = y ∨ ∃ body, defs.lookup y = some body ∧ call body b = .ok (.name x, b')) := by
  cases t with
  | name y =>
    refine ⟨y, rfl, ?_⟩
    unfold Ast.resolveWith at h
    split at h
    · cases h
      exact .inl rfl
    · split at h
      · next body hbody => exact .inr ⟨body, hbody, h⟩
      · cases h
        exact .inl rfl
  | val v | fn f => cases h
  | abs y body | fix inner | perform l e =>
    obtain ⟨_, -, h⟩ := Call.bind_eq_ok.mp h
    cases h
  | app f y | era e body | rep e c d body | handle comp branches =>
    obtain ⟨_, -, h⟩ := Call.bind_eq_ok.mp h
    obtain ⟨_, -, h⟩ := Call.bind_eq_ok.mp h
    cases h

/-- A definition that resolves to the name of a definition is a name, of a rank that is not
lower. -/
theorem resolve_eq_name (hrank : ∀ n, ∀ m ∈ refsOf defs n, rank m < rank n)
    {x : Name} (hx : (defs.lookup x).isSome) :
    ∀ {fuel : Nat} {t : Ast V F} {b b' : Bound}, Pass0.resolve defs fuel t b = .ok (.name x, b') →
      ∃ y, t = .name y ∧ (defs.lookup y).isSome ∧ rank x ≤ rank y
  | 0, t, b, b', h => by
    obtain ⟨y, rfl, rfl | ⟨_, -, h⟩⟩ := resolveWith_eq_name h
    · exact ⟨x, rfl, hx, Nat.le_refl _⟩
    · cases h
  | fuel + 1, t, b, b', h => by
    obtain ⟨y, rfl, rfl | ⟨body, hbody, h⟩⟩ := resolveWith_eq_name h
    · exact ⟨x, rfl, hx, Nat.le_refl _⟩
    · obtain ⟨z, rfl, hz, hle⟩ := resolve_eq_name hrank hx h
      have hlt := hrank y z (by simp [refsOf, hbody, Ast.defRefs, hz])
      exact ⟨y, rfl, by simp [hbody], by omega⟩

theorem resolve_ne_name (h : Acyclic defs) {fuel : Nat} {n : Name} {body : Ast V F} {b b' : Bound}
    (hn : defs.lookup n = some body) : Pass0.resolve defs fuel body b ≠ .ok (.name n, b') := by
  obtain ⟨rank, hrank⟩ := h
  intro hr
  obtain ⟨y, rfl, hy, hle⟩ := resolve_eq_name hrank (by simp [hn]) hr
  have hlt := hrank n y (by simp [refsOf, hn, Ast.defRefs, hy])
  omega

theorem expand_ne_bound : ∀ {fuel : Nat} {t : Ast V F} {i : Nat},
    expand defs fuel t [] ≠ some (.bound i) := by
  have hwith : ∀ {call : Ast V F → Option (Nameless V F)}, (∀ body i, call body ≠ some (.bound i)) →
      ∀ {t : Ast V F} {i : Nat}, t.expandWith defs call [] ≠ some (.bound i) := by
    intro call hcall t i h
    cases t with
    | name n =>
      rw [Ast.expandWith, if_neg not_mem_nil] at h
      split at h
      · exact hcall _ i h
      · cases h
    | val v | fn f => cases h
    | abs y body | fix inner | perform l e =>
      obtain ⟨_, -, h⟩ := bind_eq_some_iff.mp h
      cases h
    | app f y | era e body | rep e c d body | handle comp branches =>
      obtain ⟨_, -, h⟩ := bind_eq_some_iff.mp h
      obtain ⟨_, -, h⟩ := bind_eq_some_iff.mp h
      cases h
  intro fuel
  induction fuel with
  | zero => exact hwith fun _ _ h => by cases h
  | succ fuel ih => exact hwith fun body i => ih

theorem callExact_pending
    {callE : Ast V F → Option (Nameless V F)} (hE : ∀ {body i}, callE body ≠ some (.bound i)) :
    CallExact defs callS (fun _ _ => .pending) callE where
  sound _ h _ := by cases h
  name _ h := by cases h
  closed := hE

theorem callExact_none (h : Acyclic defs) (fuel : Nat) :
    CallExact defs callS (Pass0.resolve defs fuel) fun _ => none where
  sound _ _ he := by cases he
  name := resolve_ne_name h
  closed he := by cases he

/-- A resolution that gives the expansion is sound; the two runs may have different fuel. -/
theorem soundIn_of_resolve (h : Acyclic defs) : ∀ (fuel fuel' : Nat)
    {body r : Ast V F} {outer : List Name} {b b' : Bound}, (∀ y, b y = true → y ∈ outer) →
      Pass0.resolve defs fuel body b = .ok (r, b') →
        expand defs fuel' body [] = some (r.nameless outer) →
          SoundIn defs fuel body [] outer b b' ∧ b'.Le b
  | 0, 0, body, _, _, _, _, hb, hr, he =>
    body.soundWith (callExact_pending fun he => by cases he) hb hr he
  | 0, _ + 1, body, _, _, _, _, hb, hr, he =>
    body.soundWith (callExact_pending expand_ne_bound) hb hr he
  | fuel + 1, 0, body, _, _, _, _, hb, hr, he => body.soundWith (callExact_none h fuel) hb hr he
  | fuel + 1, fuel' + 1, body, _, _, _, _, hb, hr, he => by
    have hcall : CallExact defs (fun body => SoundIn defs fuel body []) (Pass0.resolve defs fuel)
        fun body => expand defs fuel' body [] :=
      ⟨soundIn_of_resolve h fuel fuel', resolve_ne_name h, expand_ne_bound⟩
    exact body.soundWith hcall hb hr he

end

/-! ## More fuel -/

mutual

variable {call call' : Ast V F → List Name → Bound → Bound → Prop}

theorem Ast.SoundWith.mono
    (hcall : ∀ body outer b b', call body outer b b' → call' body outer b b') :
    ∀ (e : Ast V F) {Γ outer : List Name} {b b' : Bound},
      e.SoundWith defs call Γ outer b b' → e.SoundWith defs call' Γ outer b b'
  | .name n, Γ, outer, b, b', h => by
    unfold Ast.SoundWith at h ⊢
    split at h
    · next hn => rwa [if_pos hn]
    · next hn =>
      rw [if_neg hn]
      split at h
      · exact ⟨h.1, hcall _ _ _ _ h.2⟩
      · exact h
  | .val _, _, _, _, _, h | .fn _, _, _, _, _, h => h
  | .abs _ body, _, _, _, _, ⟨b1, h, hb⟩ => ⟨b1, Ast.SoundWith.mono hcall body h, hb⟩
  | .app f x, _, _, _, _, ⟨b1, hf, hx⟩ | .era f x, _, _, _, _, ⟨b1, hf, hx⟩ =>
    ⟨b1, Ast.SoundWith.mono hcall f hf, Ast.SoundWith.mono hcall x hx⟩
  | .rep e _ _ body, _, _, _, _, ⟨b1, b2, he, h, hb⟩ =>
    ⟨b1, b2, Ast.SoundWith.mono hcall e he, Ast.SoundWith.mono hcall body h, hb⟩
  | .fix inner, _, _, _, _, h | .perform _ inner, _, _, _, _, h => Ast.SoundWith.mono hcall inner h
  | .handle comp branches, _, _, _, _, ⟨b1, hc, hb⟩ =>
    ⟨b1, Ast.SoundWith.mono hcall comp hc, HandlerBranches.SoundWith.mono hcall branches hb⟩

theorem HandlerBranches.SoundWith.mono
    (hcall : ∀ body outer b b', call body outer b b' → call' body outer b b') :
    ∀ (bs : HandlerBranches V F) {Γ outer : List Name} {b b' : Bound},
      bs.SoundWith defs call Γ outer b b' → bs.SoundWith defs call' Γ outer b b'
  | .nil, _, _, _, _, h => h
  | .cons _ _ _ body rest, _, _, _, _, ⟨b1, hb, hr⟩ =>
    ⟨b1, Ast.SoundWith.mono hcall body hb, HandlerBranches.SoundWith.mono hcall rest hr⟩

end

theorem SoundIn.succ : ∀ {fuel : Nat} {e : Ast V F} {Γ outer : List Name}
    {b b' : Bound}, SoundIn defs fuel e Γ outer b b' → SoundIn defs (fuel + 1) e Γ outer b b'
  | 0, e, _, _, _, _, h => Ast.SoundWith.mono (fun _ _ _ _ h => h.elim) e h
  | _ + 1, e, _, _, _, _, h => Ast.SoundWith.mono (fun _ _ _ _ h => SoundIn.succ h) e h

theorem SoundIn.mono {fuel k : Nat} {e : Ast V F} {Γ outer : List Name}
    {b b' : Bound} (h : SoundIn defs fuel e Γ outer b b') (hk : fuel ≤ k) :
    SoundIn defs k e Γ outer b b' := by
  induction hk with
  | refl => exact h
  | step _ ih => exact ih.succ

/-! ## Main result -/

theorem sound_of_pass0 {e r : Ast V F} {fuel : Nat}
    (h : pass0 fuel defs e = .ok r) (he : Expands defs e (r.nameless [])) :
    Acyclic defs ∧ e.Sound defs := by
  obtain ⟨visited, hv, h⟩ := Call.bind_eq_ok.mp h
  obtain ⟨⟨r', b⟩, hr, h⟩ := Call.bind_eq_ok.mp h
  cases h
  obtain ⟨fuel', he⟩ := he
  have hacyclic := topoCheck_acyclic hv
  have hs := soundIn_of_resolve hacyclic fuel fuel' (fun _ hy => by cases hy) hr he
  exact ⟨hacyclic, fuel, b, hs.1⟩

theorem Ast.Sound.pass0 {e : Ast V F} (h : e.Sound defs) (hacyclic : Acyclic defs) :
    ∃ fuel r, pass0 fuel defs e = .ok r ∧ Expands defs e (r.nameless []) := by
  obtain ⟨fuel, b, h⟩ := h
  obtain ⟨k, hk⟩ := hacyclic.topoCheck
  obtain ⟨visited, hv⟩ := hk (max fuel k) (Nat.le_max_right _ _)
  obtain ⟨r, hr, he⟩ := SoundIn.resolves (max fuel k) e [] _ _ (h.mono (Nat.le_max_left _ _))
  exact ⟨max fuel k, r, Call.bind_eq_ok.mpr ⟨visited, hv, Call.bind_eq_ok.mpr ⟨_, hr, rfl⟩⟩,
    max fuel k, he⟩

/-- `pass0` returns the capture-free expansion exactly if no definition mentions itself and no
name is lost or captured on the way. -/
theorem pass0_expands_iff (defs : DefMap V F) (e : Ast V F) :
    (∃ fuel r, pass0 fuel defs e = .ok r ∧ Expands defs e (r.nameless [])) ↔
      Acyclic defs ∧ e.Sound defs := by
  constructor
  · rintro ⟨fuel, r, h, he⟩
    exact sound_of_pass0 h he
  · rintro ⟨hacyclic, h⟩
    exact h.pass0 hacyclic

/-- One definition, `b = λx. x`. -/
def oneDefinition : DefMap Empty Empty := [("b", .abs "x" (.name "x"))]

theorem oneDefinition_acyclic : Acyclic oneDefinition := by
  refine ⟨fun _ => 0, fun n m hm => ?_⟩
  unfold refsOf at hm
  split at hm
  · next body h =>
    have hbody : body = .abs "x" (.name "x") := by
      simp only [oneDefinition, lookup_cons, lookup_nil] at h
      split at h <;> simp_all
    subst hbody
    simp [oneDefinition, Ast.defRefs, lookup_cons] at hm
  · cases hm

/-- `λb. (λb. b) b`: leaving the inner scope takes the outer `b` out of the set, and the
definition replaces the last `b`. -/
def rebound : Ast Empty Empty := .abs "b" (.app (.abs "b" (.name "b")) (.name "b"))

theorem rebound_not_sound : ¬rebound.Sound oneDefinition := by
  rintro ⟨fuel, b, h⟩
  cases fuel <;> simp [SoundIn, rebound, Ast.SoundWith, oneDefinition, Bound.remove, Bound.insert] at h

theorem rebound_not_expanded : Acyclic oneDefinition ∧
    ¬∃ fuel r, pass0 fuel oneDefinition rebound = .ok r ∧
      Expands oneDefinition rebound (r.nameless []) :=
  ⟨oneDefinition_acyclic, fun ⟨_, _, h, he⟩ => rebound_not_sound (sound_of_pass0 h he).2⟩

end Dnet
