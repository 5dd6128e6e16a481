import GraphLint.Node

/-!
# Walking a tree

A walk enters each node before what is inside it and leaves it afterwards.  A
visitor is a state machine that hears of both events.  Having been told of a
node it may ask to skip it: then nothing inside the node is entered, the node is
not left either, and the walk goes on with the next sibling.

`Tree.events` is what a visitor that never skips would hear.
-/

set_option autoImplicit false

universe u

namespace GraphLint

/-- What a visitor wants after it has entered a node. -/
inductive Control
  /-- Go on with what is inside the node, then leave it. -/
  | descend
  /-- Go on behind the node. -/
  | skip
  deriving DecidableEq, Repr, Inhabited

/-- A state machine that is told of the nodes of a tree. -/
structure Visitor (σ : Type u) where
  enter : Node → σ → σ × Control
  leave : Node → σ → σ

mutual

/-- Walks a tree, starting in some state. -/
def Tree.walk {σ : Type u} (v : Visitor σ) : Tree → σ → σ
  | .node root children, s =>
    match v.enter root s with
    | (s, .skip) => s
    | (s, .descend) => v.leave root (Tree.walkAll v children s)

/-- Walks trees one after another. -/
def Tree.walkAll {σ : Type u} (v : Visitor σ) : List Tree → σ → σ
  | [], s => s
  | t :: ts, s => Tree.walkAll v ts (t.walk v s)

end

/-- Something that happens on a walk. -/
inductive Event
  | enter (node : Node)
  | leave (node : Node)
  deriving DecidableEq, Repr, Inhabited

mutual

/-- Everything that happens on a walk that skips nothing. -/
def Tree.events : Tree → List Event
  | .node root children => .enter root :: (Tree.eventsAll children ++ [.leave root])

def Tree.eventsAll : List Tree → List Event
  | [] => []
  | t :: ts => t.events ++ Tree.eventsAll ts

end

mutual

/-- The nodes of a tree in the order in which a walk enters them. -/
def Tree.nodes : Tree → List Node
  | .node root children => root :: Tree.nodesAll children

def Tree.nodesAll : List Tree → List Node
  | [] => []
  | t :: ts => t.nodes ++ Tree.nodesAll ts

end

end GraphLint
