import LiveCompiler.Ir.Basic

/-!
# Replacing registers

A substitution collects replacements of registers by registers, to be made everywhere at
once.  A replacement may itself be replaced, so look-up follows chains to their end.
-/

namespace LiveCompiler

open Ir

/-- Replacements of registers, the latest first. -/
structure Substitution where
  entries : List (Reg × Reg)
deriving Repr

namespace Substitution

/-- No replacement. -/
def empty : Substitution where
  entries := []

/-- Whether nothing is replaced. -/
def isEmpty (s : Substitution) : Bool :=
  s.entries.isEmpty

/-- Follow a chain for at most so many steps. -/
def follow (s : Substitution) : Nat → Reg → Reg
  | 0, r => r
  | steps + 1, r =>
    match s.entries.lookup r with
    | some next => s.follow steps next
    | none => r

/-- The register that stands for `r` in the end.  A chain without a cycle has no more
steps than there are replacements. -/
def representative (s : Substitution) (r : Reg) : Reg :=
  s.follow s.entries.length r

/-- Replace `source` by what `target` stands for.  Nothing is replaced by itself. -/
def insert (s : Substitution) (source target : Reg) : Substitution :=
  let final := s.representative target
  if source = final then s else { entries := (source, final) :: s.entries }

/-- Make all replacements in a body. -/
def apply (s : Substitution) (body : Body) : Body :=
  if s.isEmpty then body else body.renameUses s.representative

end Substitution

end LiveCompiler
