import GraphLint.Proofs.Position.Ancestry

/-!
# Walks that take a position along

A traveller walks through a document, takes a position along and decides at each node,
by whatever it has seen so far, whether to go inside or to pass.  It moves the position
whenever it enters or leaves a node; a node that it passes is left at once.

Every stop of a journey is at some route of nodes that are open, and these stand
inside of each other (`Nested`).  The position there is the one along this route
(`Document.stops_along`).  So what holds along routes holds at each stop.
-/

set_option autoImplicit false

universe u

namespace GraphLint

/-! ## Routes -/

/-- Nodes that may be open at a time on a walk through a document, outermost first. -/
inductive Nested : List Node → Prop
  /-- Outside of the document. -/
  | outside : Nested []
  /-- Inside of the document, and of nothing in it. -/
  | document {n : Node} (h : n.construct = .document) : Nested [n]
  /-- Inside of something that stands inside of the others. -/
  | inside {above : List Node} {outer n : Node} (h : Nested (above ++ [outer]))
    (hn : outer.construct.Holds n.construct) : Nested (above ++ [outer] ++ [n])

/-- A tree may go on a route: its root does, and within it everything stands where it
may. -/
def Tree.Continues (route : List Node) : Tree → Prop
  | .node root children => Nested (route ++ [root]) ∧ Tree.FitAll root.construct children

theorem Nested.continues_of_fits {above : List Node} {outer : Node}
    (h : Nested (above ++ [outer])) :
    ∀ t : Tree, t.Fits outer.construct → t.Continues (above ++ [outer])
  | .node root children, ht => by
      rw [Tree.Fits] at ht
      exact ⟨.inside h ht.1, ht.2⟩

theorem Document.continues (d : Document) : d.tree.Continues [] :=
  ⟨.document rfl, d.fits⟩

mutual

/-- On a walk that skips nothing, the nodes on the way down to an event stand inside of
each other, and its own node comes last. -/
theorem Tree.nested_of_mem_routes {route : List Node} :
    ∀ t : Tree, t.Continues route →
      ∀ x ∈ t.routes route, Nested x.2 ∧ x.2.getLast? = some x.1.node
  | .node root children, ht, x, hx => by
      obtain ⟨hroot, hchildren⟩ := ht
      rw [Tree.routes, List.mem_cons, List.mem_append, List.mem_singleton] at hx
      rcases hx with rfl | hx | rfl
      · exact ⟨hroot, List.getLast?_concat⟩
      · exact Tree.nested_of_mem_routesAll hroot children hchildren x hx
      · exact ⟨hroot, List.getLast?_concat⟩

theorem Tree.nested_of_mem_routesAll {above : List Node} {outer : Node}
    (h : Nested (above ++ [outer])) :
    ∀ ts : List Tree, Tree.FitAll outer.construct ts →
      ∀ x ∈ Tree.routesAll (above ++ [outer]) ts, Nested x.2 ∧ x.2.getLast? = some x.1.node
  | [], _, _, hx => absurd hx List.not_mem_nil
  | t :: ts, hts, x, hx => by
      rw [Tree.FitAll] at hts
      rw [Tree.routesAll, List.mem_append] at hx
      rcases hx with hx | hx
      · exact Tree.nested_of_mem_routes t (h.continues_of_fits t hts.1) x hx
      · exact Tree.nested_of_mem_routesAll h ts hts.2 x hx

end

/-! ## Journeys -/

/-- Where a traveller stops. -/
structure Stop where
  /-- The nodes that are open, outermost first. -/
  opened : List Node
  /-- The position. -/
  position : Position

namespace Stop

/-- Before a journey. -/
def start (schema : TypeSystem) : Stop := ⟨[], .start schema⟩

/-- Inside of a node. -/
def enter (p : Stop) (n : Node) : Stop := ⟨p.opened ++ [n], p.position.enter n⟩

/-- Behind a node, given the stop inside of it. -/
def leave (p : Stop) (n : Node) : Stop := ⟨p.opened.dropLast, p.position.leave n⟩

end Stop

/-- A visitor that is shown positions and decides at each node whether to pass it. -/
structure Traveller (σ : Type u) where
  /-- Hears that a node is entered. -/
  enter : Position → Node → σ → σ × Control
  /-- Hears that a node is left. -/
  leave : Position → Node → σ → σ

/-- A journey that has come to some stop. -/
structure Journey (σ : Type u) where
  /-- What the traveller remembers. -/
  state : σ
  /-- The stop it has come to. -/
  place : Stop
  /-- All stops so far, this one included. -/
  stops : List Stop

namespace Journey

variable {σ : Type u}

/-- A journey that begins. -/
def start (schema : TypeSystem) (s : σ) : Journey σ := ⟨s, .start schema, [.start schema]⟩

/-- The journey goes on to another stop. -/
def goTo (j : Journey σ) (s : σ) (place : Stop) : Journey σ := ⟨s, place, j.stops ++ [place]⟩

end Journey

/-- A traveller as a visitor of nodes, which takes the position along. -/
def Traveller.visitor {σ : Type u} (v : Traveller σ) : Visitor (Journey σ) where
  enter n j :=
    let inside := j.place.enter n
    match v.enter inside.position n j.state with
    | (s, .descend) => (j.goTo s inside, .descend)
    | (s, .skip) => ((j.goTo s inside).goTo s (inside.leave n), .skip)
  leave n j := j.goTo (v.leave j.place.position n j.state) (j.place.leave n)

/-! ## Stops are along routes -/

/-- A stop at nodes that stand inside of each other, with the position along them. -/
structure Stop.OnRoute (schema : TypeSystem) (p : Stop) : Prop where
  /-- The nodes stand inside of each other. -/
  nested : Nested p.opened
  /-- Nothing but these nodes has brought the position about. -/
  along : p.position = .along schema p.opened

theorem Stop.enter_along (schema : TypeSystem) (route : List Node) (n : Node) :
    (Stop.mk route (.along schema route)).enter n =
      ⟨route ++ [n], .along schema (route ++ [n])⟩ := by
  rw [Position.along_snoc]
  rfl

namespace Journey

variable {σ : Type u} {schema : TypeSystem}

/-- A journey that has come to the end of a route, and was on routes all the time. -/
structure At (schema : TypeSystem) (route : List Node) (j : Journey σ) : Prop where
  /-- The end of the route. -/
  place : j.place = ⟨route, .along schema route⟩
  /-- No stop was off a route. -/
  stops : ∀ p ∈ j.stops, p.OnRoute schema

theorem At.goTo {route next : List Node} {j : Journey σ} (hj : j.At schema route)
    (hnext : Nested next) (s : σ) : (j.goTo s ⟨next, .along schema next⟩).At schema next := by
  refine ⟨rfl, ?_⟩
  intro p hp
  rcases List.mem_append.mp hp with hp | hp
  · exact hj.stops p hp
  · obtain rfl := List.mem_singleton.mp hp
    exact ⟨hnext, rfl⟩

theorem start_at (schema : TypeSystem) (s : σ) : (start schema s).At schema [] := by
  refine ⟨rfl, ?_⟩
  intro p hp
  obtain rfl := List.mem_singleton.mp hp
  exact ⟨.outside, rfl⟩

end Journey

section

variable {σ : Type u} {schema : TypeSystem}

mutual

/-- A traveller comes back from a tree to where it entered it. -/
theorem Traveller.walk_at (v : Traveller σ) {route : List Node} (hroute : Nested route) :
    ∀ (t : Tree) {j : Journey σ}, t.Continues route →
      Tracker.position.Restores (.along schema route) t → j.At schema route →
      (t.walk v.visitor j).At schema route
  | .node root children, j, ht, hback, hj => by
      obtain ⟨hroot, hchildren⟩ := ht
      rw [Tracker.Restores] at hback
      obtain ⟨hleave, hrestores⟩ := hback
      have henter : j.place.enter root = ⟨route ++ [root], .along schema (route ++ [root])⟩ := by
        rw [hj.place, Stop.enter_along]
      have hbehind : (Stop.mk (route ++ [root]) (.along schema (route ++ [root]))).leave root =
          ⟨route, .along schema route⟩ := by
        rw [Stop.leave, List.dropLast_concat, Position.along_snoc]
        exact congrArg (Stop.mk route) hleave
      have hinside : ∀ s, (j.goTo s (j.place.enter root)).At schema (route ++ [root]) := by
        intro s
        rw [henter]
        exact hj.goTo hroot s
      rw [Tree.walk]
      rcases hanswer : v.enter (j.place.enter root).position root j.state with ⟨s, control⟩
      cases control with
      | skip =>
          -- The node is left at once, which takes the journey back to the route.
          have hpass : v.visitor.enter root j = ((j.goTo s (j.place.enter root)).goTo s
              ((j.place.enter root).leave root), .skip) := by
            simp only [Traveller.visitor, hanswer]
          have hplace : (j.place.enter root).leave root = ⟨route, .along schema route⟩ := by
            rw [henter, hbehind]
          rw [hpass]
          show Journey.At schema route (Journey.goTo _ s ((j.place.enter root).leave root))
          rw [hplace]
          exact (hinside s).goTo hroute s
      | descend =>
          have hdescend : v.visitor.enter root j = (j.goTo s (j.place.enter root), .descend) := by
            simp only [Traveller.visitor, hanswer]
          -- What is inside leaves the journey inside of the node, from where it is left.
          have hend : (Tree.walkAll v.visitor children (j.goTo s (j.place.enter root))).At schema
              (route ++ [root]) := by
            refine v.walkAll_at hroot children hchildren ?_ (hinside s)
            rw [Position.along_snoc]
            exact hrestores
          rw [hdescend]
          show Journey.At schema route (Journey.goTo _ _ (Stop.leave _ root))
          rw [hend.place, hbehind]
          exact hend.goTo hroute _

theorem Traveller.walkAll_at (v : Traveller σ) {above : List Node} {outer : Node}
    (hroute : Nested (above ++ [outer])) :
    ∀ (ts : List Tree) {j : Journey σ}, Tree.FitAll outer.construct ts →
      Tracker.position.RestoresAll (.along schema (above ++ [outer])) ts →
      j.At schema (above ++ [outer]) →
      (Tree.walkAll v.visitor ts j).At schema (above ++ [outer])
  | [], _, _, _, hj => hj
  | t :: ts, j, hts, hback, hj => by
      rw [Tree.FitAll] at hts
      rw [Tracker.RestoresAll] at hback
      have hfirst := v.walk_at hroute t (hroute.continues_of_fits t hts.1) hback.1 hj
      exact v.walkAll_at hroute ts hts.2 hback.2 hfirst

end

/-- Every stop of a journey through a document is on a route. -/
theorem Document.stops_onRoute (schema : TypeSystem) (d : Document) (v : Traveller σ) (s : σ) :
    ∀ p ∈ (d.tree.walk v.visitor (.start schema s)).stops, p.OnRoute schema :=
  (v.walk_at .outside d.tree d.continues (d.restores schema) (Journey.start_at schema s)).stops

end

end GraphLint
