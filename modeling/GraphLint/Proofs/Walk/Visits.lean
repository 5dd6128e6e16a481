import GraphLint.Proofs.Document.Phrases

/-!
# What a walk enters

A visitor that keeps a list of the nodes it is told to enter, each with the nodes that are
open around it, shows what a walk does: `Document.visits` is that list.  Any other visitor
is told of the same events, unless it asks to skip something (`Tree.walk_eq_foldl`).

A document consists of phrases, and the list has one visit for each of them that has a node
(`Document.visits_complete`).  Visits come in the order of the paths that lead to the
phrases, so none is missed, none comes twice, and each comes under the phrases it is part of.
-/

set_option autoImplicit false

namespace GraphLint

/-! ## A visitor that keeps a list -/

/-- How far a walk has come. -/
structure Itinerary where
  /-- The nodes that have been entered and not been left, the innermost first. -/
  opened : List Node
  /-- For each node that has been entered, the nodes that were open then, itself first. -/
  visits : List (List Node)

/-- Keeps a list of the nodes it is told to enter. -/
def Visitor.scribe : Visitor Itinerary where
  enter n s := (⟨n :: s.opened, s.visits ++ [n :: s.opened]⟩, .descend)
  leave _ s := ⟨s.opened.tail, s.visits⟩

/-- The visits of a walk through a document. -/
def Document.visits (d : Document) : List (List Node) := (d.tree.walk .scribe ⟨[], []⟩).visits

mutual

/-- The visits of a walk through a tree, below nodes that are open already. -/
def Tree.visits (above : List Node) : Tree → List (List Node)
  | .node root children => (root :: above) :: Tree.visitsAll (root :: above) children

/-- The visits of a walk through several trees. -/
def Tree.visitsAll (above : List Node) : List Tree → List (List Node)
  | [] => []
  | t :: ts => t.visits above ++ Tree.visitsAll above ts

end

namespace Tree

theorem visitsAll_append (above : List Node) (ts us : List Tree) :
    visitsAll above (ts ++ us) = visitsAll above ts ++ visitsAll above us := by
  induction ts with
  | nil => rfl
  | cons t ts ih => rw [List.cons_append, visitsAll, visitsAll, ih, List.append_assoc]

mutual

theorem walk_scribe (above : List Node) (seen : List (List Node)) :
    ∀ t : Tree, t.walk .scribe ⟨above, seen⟩ = ⟨above, seen ++ t.visits above⟩
  | .node root children => by
      have henter : Visitor.scribe.enter root ⟨above, seen⟩ =
          (⟨root :: above, seen ++ [root :: above]⟩, .descend) := rfl
      rw [walk, henter]
      dsimp only
      rw [walkAll_scribe _ _ children, visits, List.append_assoc]
      rfl

theorem walkAll_scribe (above : List Node) (seen : List (List Node)) :
    ∀ ts : List Tree, walkAll .scribe ts ⟨above, seen⟩ = ⟨above, seen ++ visitsAll above ts⟩
  | [] => by rw [walkAll, visitsAll, List.append_nil]
  | t :: ts => by
      rw [walkAll, walk_scribe above seen t, walkAll_scribe above _ ts, visitsAll,
        List.append_assoc]

end

end Tree

theorem Document.visits_eq (d : Document) : d.visits = d.tree.visits [] := by
  rw [visits, Tree.walk_scribe, List.nil_append]

/-! ## Other visitors -/

/-- The state of a visitor that is told of an event. -/
def Visitor.hear {σ : Type} (v : Visitor σ) (s : σ) : Event → σ
  | .enter n => (v.enter n s).1
  | .leave n => v.leave n s

/-- The node that is entered, if one is. -/
def Event.entered? : Event → Option Node
  | .enter n => some n
  | .leave _ => none

namespace Tree

mutual

theorem walk_eq_foldl {σ : Type} {v : Visitor σ} (hv : ∀ n s, (v.enter n s).2 = .descend) :
    ∀ (t : Tree) (s : σ), t.walk v s = t.events.foldl v.hear s
  | .node root children, s => by
      have hdescend := hv root s
      rw [walk, events, List.foldl_cons, List.foldl_append, ← walkAll_eq_foldl hv children]
      generalize hentered : v.enter root s = entered at hdescend
      obtain ⟨s', control⟩ := entered
      obtain rfl : control = .descend := hdescend
      have hstate : v.hear s (.enter root) = s' := congrArg Prod.fst hentered
      rw [hstate]
      rfl

theorem walkAll_eq_foldl {σ : Type} {v : Visitor σ} (hv : ∀ n s, (v.enter n s).2 = .descend) :
    ∀ (ts : List Tree) (s : σ), walkAll v ts s = (eventsAll ts).foldl v.hear s
  | [], _ => rfl
  | t :: ts, s => by
      rw [walkAll, eventsAll, List.foldl_append, ← walk_eq_foldl hv t, ← walkAll_eq_foldl hv ts]

end

mutual

theorem filterMap_entered? : ∀ t : Tree, t.events.filterMap Event.entered? = t.nodes
  | .node root children => by
      rw [events, nodes, List.filterMap_cons, List.filterMap_append,
        filterMap_entered?_all children]
      exact congrArg (root :: ·) (List.append_nil _)

theorem filterMap_entered?_all :
    ∀ ts : List Tree, (eventsAll ts).filterMap Event.entered? = nodesAll ts
  | [] => rfl
  | t :: ts => by
      rw [eventsAll, nodesAll, List.filterMap_append, filterMap_entered? t,
        filterMap_entered?_all ts]

end

mutual

theorem filterMap_head? (above : List Node) :
    ∀ t : Tree, (t.visits above).filterMap List.head? = t.nodes
  | .node root children => by
      rw [visits, nodes, List.filterMap_cons, filterMap_head?_all (root :: above) children]
      rfl

theorem filterMap_head?_all (above : List Node) :
    ∀ ts : List Tree, (visitsAll above ts).filterMap List.head? = nodesAll ts
  | [] => rfl
  | t :: ts => by
      rw [visitsAll, nodesAll, List.filterMap_append, filterMap_head? above t,
        filterMap_head?_all above ts]

end

end Tree

/-! ## Visits of phrases -/

namespace Phrase

/-- What phrases that have a node consist of is smaller than they are, so it can be
reasoned about first. -/
theorem induct {motive : Phrase → Prop}
    (h : ∀ p, (∀ n, p.node? = some n → ∀ q ∈ p.parts, motive q) → motive p) (p : Phrase) :
    motive p := by
  have hsmaller : ∀ (p : Phrase) (n : Node), p.node? = some n → ∀ q ∈ p.parts,
      (Tree.nodesAll q.trees).length < (Tree.nodesAll p.trees).length := by
    intro p n hn q hq
    obtain ⟨before, behind, heq⟩ := List.append_of_mem hq
    rw [trees_of_node? hn, heq, List.flatMap_append, List.flatMap_cons, Tree.nodesAll, Tree.nodes,
      Tree.nodesAll, List.append_nil, List.length_cons, Tree.nodesAll_append,
      Tree.nodesAll_append, List.length_append, List.length_append]
    omega
  generalize hsize : (Tree.nodesAll p.trees).length = size
  induction size using Nat.strongRecOn generalizing p with
  | ind size ih =>
      refine h p fun n hn q hq => ih _ ?_ q rfl
      exact hsize ▸ hsmaller p n hn q hq

/-- A path leads to a phrase with a node; the visit of that node has this route. -/
def Occurs (above : List Node) (p : Phrase) (path : List Nat) (visit : List Node) : Prop :=
  ∃ q n route, p.Leads above path route q ∧ q.node? = some n ∧ visit = n :: route

/-- Visits in the order of paths. -/
structure Listed (occurs : List Nat → List Node → Prop) (visits : List (List Node))
    (entries : List (List Nat × List Node)) : Prop where
  /-- These are the visits. -/
  visits_eq : entries.map (·.2) = visits
  /-- Their paths ascend: what comes first in the text comes first, and a whole comes before
  its parts. -/
  ascending : (entries.map (·.1)).Pairwise (· < ·)
  /-- They are all that occur, with their paths. -/
  mem_iff : ∀ path visit, (path, visit) ∈ entries ↔ occurs path visit

theorem Occurs.inside_iff {above : List Node} {p : Phrase} {n : Node} (hn : p.node? = some n)
    {path : List Nat} {visit : List Node} :
    p.Occurs above path visit ↔ (path = [] ∧ visit = n :: above) ∨
      ∃ i q rest, path = i :: rest ∧ p.parts[i]? = some q ∧ q.Occurs (n :: above) rest visit := by
  constructor
  · rintro ⟨r, m, route, hleads, hm, rfl⟩
    cases hleads with
    | here =>
        obtain rfl := Option.some.inj (hn.symm.trans hm)
        exact .inl ⟨rfl, rfl⟩
    | inside hn' hq hr =>
        obtain rfl := Option.some.inj (hn.symm.trans hn')
        exact .inr ⟨_, _, _, rfl, hq, r, m, route, hr, hm, rfl⟩
  · rintro (⟨rfl, rfl⟩ | ⟨i, q, rest, rfl, hq, r, m, route, hr, hm, rfl⟩)
    · exact ⟨p, n, above, .here, hn, rfl⟩
    · exact ⟨r, m, route, .inside hn hq hr, hm, rfl⟩

theorem not_occurs {above : List Node} {p : Phrase} (hp : p.node? = none) {path : List Nat}
    {visit : List Node} : ¬ p.Occurs above path visit := by
  rintro ⟨q, n, route, hleads, hn, -⟩
  cases hleads with
  | here =>
      rw [hp] at hn
      cases hn
  | inside hn' _ _ =>
      rw [hp] at hn'
      cases hn'

/-- The visits of phrases that are numbered from some number on. -/
theorem listed_all (above : List Node) (ps : List Phrase)
    (h : ∀ p ∈ ps, ∃ entries, Listed (p.Occurs above) (Tree.visitsAll above p.trees) entries)
    (first : Nat) :
    ∃ entries, Listed
      (fun path visit => ∃ i q rest, path = (first + i) :: rest ∧ ps[i]? = some q ∧
        q.Occurs above rest visit)
      (Tree.visitsAll above (ps.flatMap trees)) entries := by
  induction ps generalizing first with
  | nil => exact ⟨[], rfl, .nil, fun _ _ => ⟨nofun, nofun⟩⟩
  | cons p ps ih =>
      obtain ⟨hp, hps⟩ := List.forall_mem_cons.mp h
      obtain ⟨own, hown⟩ := hp
      obtain ⟨others, hothers⟩ := ih hps (first + 1)
      refine ⟨own.map (fun x => (first :: x.1, x.2)) ++ others, ?_, ?_, ?_⟩
      · rw [List.map_append, List.map_map, hothers.visits_eq, List.flatMap_cons,
          Tree.visitsAll_append, ← hown.visits_eq]
        rfl
      · rw [List.map_append, List.map_map, List.pairwise_append]
        refine ⟨?_, hothers.ascending, ?_⟩
        · have hascending := List.pairwise_map.mp hown.ascending
          exact List.pairwise_map.mpr <| hascending.imp fun hlt =>
            List.cons_lt_cons_iff.mpr (.inr ⟨rfl, hlt⟩)
        · intro path hpath path' hpath'
          obtain ⟨x, -, rfl⟩ := List.mem_map.mp hpath
          obtain ⟨⟨path', visit⟩, hmem, rfl⟩ := List.mem_map.mp hpath'
          obtain ⟨i, q, rest, rfl, -, -⟩ := (hothers.mem_iff path' visit).mp hmem
          exact List.cons_lt_cons_iff.mpr (.inl (by omega))
      · intro path visit
        rw [List.mem_append, hothers.mem_iff]
        constructor
        · rintro (hmem | ⟨i, q, rest, rfl, hq, hoccurs⟩)
          · obtain ⟨x, hx, heq⟩ := List.mem_map.mp hmem
            cases heq
            exact ⟨0, p, x.1, rfl, rfl, (hown.mem_iff x.1 x.2).mp hx⟩
          · exact ⟨i + 1, q, rest, by rw [Nat.add_right_comm, Nat.add_assoc], hq, hoccurs⟩
        · rintro ⟨_ | i, q, rest, rfl, hq, hoccurs⟩
          · obtain rfl := Option.some.inj hq
            have hmem := (hown.mem_iff rest visit).mpr hoccurs
            exact .inl (List.mem_map.mpr ⟨(rest, visit), hmem, rfl⟩)
          · exact .inr ⟨i, q, rest, by rw [Nat.add_right_comm, Nat.add_assoc], hq, hoccurs⟩

/-- The visits of a phrase are those of the phrases it leads to. -/
theorem listed (p : Phrase) : ∀ above : List Node,
    ∃ entries, Listed (p.Occurs above) (Tree.visitsAll above p.trees) entries := by
  induction p using induct with
  | h p ih =>
      intro above
      cases hn : p.node? with
      | none =>
          refine ⟨[], ?_, .nil, fun _ _ => ⟨nofun, fun hoccurs => absurd hoccurs (not_occurs hn)⟩⟩
          rw [trees_of_node?_eq_none hn]
          rfl
      | some n =>
          obtain ⟨entries, hentries⟩ :=
            listed_all (n :: above) p.parts (fun q hq => ih n hn q hq (n :: above)) 0
          refine ⟨([], n :: above) :: entries, ?_, ?_, ?_⟩
          · rw [List.map_cons, hentries.visits_eq, trees_of_node? hn, Tree.visitsAll, Tree.visits,
              Tree.visitsAll, List.append_nil]
          · rw [List.map_cons, List.pairwise_cons]
            refine ⟨fun path hpath => ?_, hentries.ascending⟩
            obtain ⟨⟨path, visit⟩, hmem, rfl⟩ := List.mem_map.mp hpath
            obtain ⟨i, q, rest, rfl, -, -⟩ := (hentries.mem_iff path visit).mp hmem
            exact List.nil_lt_cons _ _
          · intro path visit
            rw [List.mem_cons, hentries.mem_iff, Occurs.inside_iff hn, Prod.mk.injEq]
            simp only [Nat.zero_add]

end Phrase

/-- A walk through a document visits what occurs in it, and nothing else, each occurrence
once and in order. -/
theorem Document.visits_complete (d : Document) :
    ∃ entries, Phrase.Listed ((Phrase.document d).Occurs []) d.visits entries := by
  obtain ⟨entries, hentries⟩ := (Phrase.document d).listed []
  refine ⟨entries, ?_, hentries.ascending, hentries.mem_iff⟩
  rw [hentries.visits_eq, d.visits_eq, Phrase.trees, Tree.visitsAll, Tree.visitsAll,
    List.append_nil]

/-- The nodes of a document are those that are visited. -/
theorem Document.filterMap_head? (d : Document) :
    d.visits.filterMap List.head? = d.tree.nodes := by
  rw [d.visits_eq, Tree.filterMap_head?]

/-- Each node of a document is that of a phrase. -/
theorem Document.exists_phrase (d : Document) {n : Node} (h : n ∈ d.tree.nodes) :
    ∃ path route p, (Phrase.document d).Leads [] path route p ∧ p.node? = some n := by
  rw [← d.filterMap_head?] at h
  obtain ⟨visit, hvisit, hhead⟩ := List.mem_filterMap.mp h
  obtain ⟨entries, hentries⟩ := d.visits_complete
  rw [← hentries.visits_eq] at hvisit
  obtain ⟨⟨path, _⟩, hmem, rfl⟩ := List.mem_map.mp hvisit
  obtain ⟨p, m, route, hleads, hm, rfl⟩ := (hentries.mem_iff path _).mp hmem
  obtain rfl := Option.some.inj hhead
  exact ⟨path, route, p, hleads, hm⟩

end GraphLint
