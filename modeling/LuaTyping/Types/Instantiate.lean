import LuaTyping.Types.Basic

/-!
# Fresh variables and instances of type schemes

An instance of a type scheme has fresh variables in place of the quantified ones. Which variable
stands for which is written down in a register. There is one register that all instances share, and
a caller may bring one of its own; the alternatives of a union always use the shared one.

## Main definitions

* `Supply` — the counter of fresh variables, with the shared register.
* `Ty.instantiate` — an instance by the shared register.
* `Ty.instantiateBy` — an instance by a register of one's own.
-/

set_option autoImplicit false

namespace LuaTyping

/-- Which type stands for a variable in instances. -/
abbrev Register := List (String × Ty)

/-- The supply of fresh variables: how many there have been, and the register that all instances
share. -/
structure Supply where
  count : Nat
  shared : Register

/-- A supply of fresh variables, and a register of one's own. -/
structure Instances where
  supply : Supply
  own : Register

namespace Register

/-- Enters a variable into a register, in place of an earlier entry. -/
def enter (x : String) (t : Ty) (r : Register) : Register :=
  (x, t) :: r.filter fun (y, _) => y != x

end Register

/-- The next fresh variable. -/
def Supply.fresh (s : Supply) : Ty × Supply :=
  (.var s!"t{s.count + 1}", ⟨s.count + 1, s.shared⟩)

namespace Instances

/-- The register in use: one's own or the shared one. -/
def register (i : Instances) (own : Bool) : Register := if own then i.own else i.supply.shared

/-- Enters a fresh variable for `x` into the register in use. -/
def quantify (i : Instances) (own : Bool) (x : String) : Instances :=
  let (t, supply) := i.supply.fresh
  if own then ⟨supply, Register.enter x t i.own⟩
  else ⟨⟨supply.count, Register.enter x t supply.shared⟩, i.own⟩

end Instances

namespace Ty

mutual

/-- An instance of a type scheme, by one's own or the shared register. -/
def freshen (own : Bool) : Ty → StateM Instances Ty
  | .var x => fun i => (((i.register own).lookup x).getD (.var x), i)
  | .con c args v checks => do return .con c (← freshenList own args) v checks
  | .table fields => do return .table (← freshenFields own fields)
  | .union left right => do return .union (← left.freshen false) (← right.freshen false)
  | .all x body => do
    modify fun i => i.quantify own x
    body.freshen own

/-- Instances of some types. -/
def freshenList (own : Bool) : List Ty → StateM Instances (List Ty)
  | [] => pure []
  | t :: ts => do return (← t.freshen own) :: (← freshenList own ts)

/-- Instances of some fields. -/
def freshenFields (own : Bool) : List (Ty × Ty) → StateM Instances (List (Ty × Ty))
  | [] => pure []
  | (k, v) :: rest => do
    return (← k.freshen own, ← v.freshen own) :: (← freshenFields own rest)

end

/-- An instance of a type scheme by the shared register. -/
def instantiate (t : Ty) (s : Supply) : Ty × Supply :=
  let (u, i) := (t.freshen false).run ⟨s, []⟩
  (u, i.supply)

/-- An instance of a type scheme by a register of one's own. -/
def instantiateBy (own : Register) (t : Ty) (s : Supply) : Ty × Supply :=
  let (u, i) := (t.freshen true).run ⟨s, own⟩
  (u, i.supply)

end Ty

end LuaTyping
