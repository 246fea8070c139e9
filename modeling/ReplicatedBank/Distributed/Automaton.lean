import Mathlib.Tactic.TypeStar

/-!
# The processes of a group

What a group communication system asks of its members: how a member reacts to
something that happens at its own site, to a message and to a change of the
membership, and what it multicasts in each case.
-/

namespace Distributed

/-- Why the membership changed. -/
inductive Cause where
  | join
  | leave
  | disconnect
deriving DecidableEq, Repr

/-- A membership: the process that came or went, and the members from then on. -/
structure View (ι : Type*) where
  /-- What happened. -/
  cause : Cause
  /-- The process it happened to. -/
  subject : ι
  /-- The members afterwards, in the order in which they joined. -/
  members : List ι

/-- A deterministic process with states `σ` that exchanges messages `μ` with the
processes `ι` of its group and has local actions `κ`.  Each reaction returns the
new state and what is multicast, in order. -/
structure Automaton (ι σ μ κ : Type*) where
  /-- The reaction to an action at the process's own site. -/
  act : σ → κ → σ × List μ
  /-- The reaction to a message. -/
  receive : σ → μ → σ × List μ
  /-- The reaction to a new membership. -/
  view : σ → View ι → σ × List μ

end Distributed
