import LispNamespace.Tree.Basic

/-!
# Equality of values

Two trees denote equal values when their numbers agree as numbers, their strings as texts, and
their sequences element by element. The source text of a literal plays no part. Characters count
as their codes and truth values as one and zero, so `?a` equals `97`. A list never equals a
vector, and nil in its short form equals only itself.
-/

namespace LispNamespace

open Number

namespace Tree

/-- The integer an atom counts as, when it counts as one. -/
def integer? : Tree → Option Int
  | .bool value => some (if value then 1 else 0)
  | .char code _ => some code
  | .int value => some value
  | _ => none

/-- Equality of atoms. -/
def equalAtoms (a b : Tree) : Bool :=
  match a, b with
  | .nil, .nil => true
  | .absent, .absent => true
  | .sym name, .sym other => name == other
  | .float x, .float y => x.equal y
  | a, b =>
      match a.integer?, b.integer?, a, b with
      | some n, some m, _, _ => n == m
      | some n, none, _, .float y => y.equalInt n
      | none, some m, .float x, _ => x.equalInt m
      | _, _, _, _ =>
          match a.text?, b.text? with
          | some s, some t => s == t
          | _, _ => false

mutual

/-- Equality of values. -/
def equal : Tree → Tree → Bool
  | .list items, .list others => equalAll items others
  | .vec items, .vec others => equalAll items others
  | .dot items tail, .dot others end_ => equalAll items others && equal tail end_
  | a, b => equalAtoms a b

/-- Equality of values, element by element. -/
def equalAll : List Tree → List Tree → Bool
  | [], [] => true
  | a :: as, b :: bs => equal a b && equalAll as bs
  | _, _ => false

end

end Tree

end LispNamespace
