import GraphLint.Proofs.Source.Places
import GraphLint.Proofs.Walk.Visits

/-!
# A walk goes along with the text

In a text without faults all phrases stand in rows (`Source.Plain`), and a walk goes through
a row from its beginning to its end.  Of two visits the later one is inside of the earlier
one or behind it (`Follows`), by tokens and so by bytes.
-/

set_option autoImplicit false

namespace GraphLint

/-- The later of two visits is of a node inside of the other one, or of a node behind it. -/
inductive Follows : List Node → List Node → Prop
  | inside {n m : Node} {above between : List Node} (hfirst : n.extent.first ≤ m.extent.first) :
    Follows (n :: above) (m :: (between ++ n :: above))
  | behind {n m : Node} {above above' : List Node} (hnonempty : n.extent.first < n.extent.stop)
    (h : n.extent.stop ≤ m.extent.first) : Follows (n :: above) (m :: above')

namespace Follows

variable {n m : Node} {above above' : List Node}

/-- What comes later does not begin earlier. -/
theorem first_le (h : Follows (n :: above) (m :: above')) : n.extent.first ≤ m.extent.first := by
  cases h with
  | inside hfirst => exact hfirst
  | behind hnonempty h => exact Nat.le_trans (Nat.le_of_lt hnonempty) h

/-- Of two nodes under the same ones, one is behind the other. -/
theorem behind_of_siblings (h : Follows (n :: above) (m :: above)) :
    n.extent.stop ≤ m.extent.first := by
  generalize hv : n :: above = v at h
  generalize hw : m :: above = w at h
  cases h with
  | inside _ =>
      cases hv
      have hlength := congrArg List.length (List.cons.inj hw).2
      rw [List.length_append, List.length_cons] at hlength
      omega
  | behind _ h =>
      cases hv
      cases hw
      exact h

end Follows

namespace Row

variable {tokens : List Token} {first stop : Nat} {ps : List Phrase}

theorem visits_skip {p : Phrase} (hp : p.node? = none) (above : List Node) (ps : List Phrase) :
    Tree.visitsAll above ((p :: ps).flatMap Phrase.trees) =
      Tree.visitsAll above (ps.flatMap Phrase.trees) := by
  rw [List.flatMap_cons, Phrase.trees_of_node?_eq_none hp, List.nil_append]

theorem visits_cons {p : Phrase} {n : Node} (hp : p.node? = some n) (above : List Node)
    (ps : List Phrase) :
    Tree.visitsAll above ((p :: ps).flatMap Phrase.trees) =
      (n :: above) :: (Tree.visitsAll (n :: above) (p.parts.flatMap Phrase.trees) ++
        Tree.visitsAll above (ps.flatMap Phrase.trees)) := by
  rw [List.flatMap_cons, Phrase.trees_of_node? hp, Tree.visitsAll_append, Tree.visitsAll,
    Tree.visits, Tree.visitsAll, List.append_nil, List.cons_append]

/-- The visits of a row are visits of nodes in the row. -/
theorem visits_within (h : Row tokens first ps stop) :
    ∀ above, ∀ v ∈ Tree.visitsAll above (ps.flatMap Phrase.trees), ∃ n between,
      v = n :: (between ++ above) ∧ first ≤ n.extent.first ∧
        n.extent.Within stop := by
  induction h with
  | nil _ => exact fun _ v hv => absurd hv List.not_mem_nil
  | skip hp _ ih =>
      intro above
      rw [visits_skip hp]
      exact ih above
  | @cons first stop p n ps hp hfirst hn hparts hps ihparts ih =>
      intro above v hv
      rw [visits_cons hp, List.mem_cons, List.mem_append] at hv
      rcases hv with rfl | hv | hv
      · exact ⟨n, [], rfl, hfirst, hn.nonempty, hps.le⟩
      · obtain ⟨m, between, rfl, hmfirst, hm⟩ := ihparts (n :: above) v hv
        refine ⟨m, between ++ [n], by simp, Nat.le_trans hfirst hmfirst, hm.nonempty, ?_⟩
        exact Nat.le_trans hm.stop_le hps.le
      · obtain ⟨m, between, rfl, hmfirst, hm⟩ := ih above v hv
        have hnonempty := hn.nonempty
        exact ⟨m, between, rfl, by omega, hm⟩

/-- Each visit of a row follows the ones before. -/
theorem visits_follow (h : Row tokens first ps stop) :
    ∀ above, (Tree.visitsAll above (ps.flatMap Phrase.trees)).Pairwise Follows := by
  induction h with
  | nil _ => exact fun _ => .nil
  | skip hp _ ih =>
      intro above
      rw [visits_skip hp]
      exact ih above
  | @cons first stop p n ps hp hfirst hn hparts hps ihparts ih =>
      intro above
      rw [visits_cons hp, List.pairwise_cons, List.pairwise_append]
      refine ⟨fun v hv => ?_, ihparts _, ih above, fun v hv w hw => ?_⟩
      · rcases List.mem_append.mp hv with hv | hv
        · obtain ⟨m, between, rfl, hmfirst, -⟩ := hparts.visits_within _ v hv
          exact .inside hmfirst
        · obtain ⟨m, between, rfl, hmfirst, -⟩ := hps.visits_within _ v hv
          exact .behind hn.nonempty hmfirst
      · obtain ⟨m, _, rfl, -, hm⟩ := hparts.visits_within _ v hv
        obtain ⟨m', _, rfl, hm', -⟩ := hps.visits_within _ w hw
        exact .behind hm.nonempty (Nat.le_trans hm.stop_le hm')

/-- A node of a row lies within the one it is visited under, if that is of the row as well. -/
theorem visits_nested (h : Row tokens first ps stop) :
    ∀ above, ∀ (n m : Node) (route : List Node),
      n :: m :: route ∈ Tree.visitsAll above (ps.flatMap Phrase.trees) →
        above = m :: route ∨ m.extent.Within stop ∧ m.extent.first ≤ n.extent.first ∧
          n.extent.stop ≤ m.extent.stop := by
  induction h with
  | nil _ => exact fun _ _ _ _ hv => absurd hv List.not_mem_nil
  | skip hp _ ih =>
      intro above
      rw [visits_skip hp]
      exact ih above
  | @cons first stop p n ps hp hfirst hn hparts hps ihparts ih =>
      intro above n' m route hv
      rw [visits_cons hp, List.mem_cons, List.mem_append] at hv
      rcases hv with heq | hv | hv
      · exact .inl (List.cons.inj heq).2.symm
      · rcases ihparts _ n' m route hv with heq | ⟨hm, hnested⟩
        · obtain ⟨_, between, heq', hfirst', hn'⟩ := hparts.visits_within _ _ hv
          obtain rfl := (List.cons.inj heq).1
          obtain rfl := (List.cons.inj heq').1
          exact .inr ⟨⟨hn.nonempty, hps.le⟩, hfirst', hn'.stop_le⟩
        · exact .inr ⟨⟨hm.nonempty, Nat.le_trans hm.stop_le hps.le⟩, hnested⟩
      · exact ih above n' m route hv

end Row

/-! ## Documents in rows -/

namespace Document

theorem visits_eq_flatMap (d : Document) :
    d.visits = Tree.visitsAll [] ([Phrase.document d].flatMap Phrase.trees) := by
  rw [d.visits_eq, List.flatMap_singleton, Phrase.trees, Tree.visitsAll, Tree.visitsAll,
    List.append_nil]

variable {tokens : List Token} {stop : Nat} {d : Document}

theorem visits_follow (h : Row tokens 0 [.document d] stop) : d.visits.Pairwise Follows :=
  d.visits_eq_flatMap ▸ h.visits_follow []

/-- The nodes of a document are in the order in which they begin. -/
theorem nodes_ordered (h : Row tokens 0 [.document d] stop) :
    d.tree.nodes.Pairwise (·.extent.first ≤ ·.extent.first) := by
  rw [← d.filterMap_head?]
  refine List.Pairwise.filterMap _ ?_ (visits_follow h)
  intro v w hfollows n hn m hm
  obtain ⟨above, rfl⟩ := List.head?_eq_some_iff.mp hn
  obtain ⟨above', rfl⟩ := List.head?_eq_some_iff.mp hm
  exact hfollows.first_le

end Document

/-! ## Texts without faults -/

namespace Source

variable {text : String}

/-- What is visited spans tokens of the text. -/
theorem within_of_mem_visits (hplain : Plain text) {n : Node} {above : List Node}
    (h : n :: above ∈ (read text).document.visits) : n.extent.Within (tokens text).length := by
  rw [Document.visits_eq_flatMap] at h
  obtain ⟨m, between, heq, -, hm⟩ := hplain.row.visits_within [] _ h
  obtain rfl := (List.cons.inj heq).1
  exact hm

/-- What a walk through a text does. -/
structure Toured (text : String) : Prop where
  /-- Whoever goes on the walk and skips nothing is told of the same events. -/
  told : ∀ {σ : Type} (v : Visitor σ), (∀ n s, (v.enter n s).2 = .descend) →
    ∀ s, (read text).document.tree.walk v s = (read text).document.tree.events.foldl v.hear s
  /-- The nodes that are entered are those that are visited. -/
  entered : (read text).document.tree.events.filterMap Event.entered? =
    (read text).document.visits.filterMap List.head?
  /-- What occurs in the document is visited once, under what it occurs in and in order, and
  nothing else is. -/
  complete : ∃ entries, Phrase.Listed ((Phrase.document (read text).document).Occurs [])
    (read text).document.visits entries
  /-- Names are not entered. -/
  unnamed : ∀ visit ∈ (read text).document.visits, ∀ n ∈ visit, n.kind ≠ .name
  /-- What is entered later does not begin earlier. -/
  ascending : (read text).document.visits.Pairwise fun v w =>
    ∀ n m above above', v = n :: above → w = m :: above' →
      ((read text).span n.extent).start ≤ ((read text).span m.extent).start
  /-- A node lies within the one that it is entered under. -/
  nested : ∀ n m above, n :: m :: above ∈ (read text).document.visits →
    ((read text).span m.extent).start ≤ ((read text).span n.extent).start ∧
      ((read text).span n.extent).stop ≤ ((read text).span m.extent).stop
  /-- Nodes that are entered under the same one do not overlap and come in order. -/
  disjoint : (read text).document.visits.Pairwise fun v w =>
    ∀ n m above, v = n :: above → w = m :: above →
      ((read text).span n.extent).stop ≤ ((read text).span m.extent).start

theorem Construct.kind_ne_name (c : Construct) : c.kind ≠ .name := by
  cases c with
  | schema isExtension => cases isExtension <;> nofun
  | type kind isExtension => cases isExtension <;> nofun
  | _ => nofun

/-- A walk through a text without faults enters all there is, in the order of the text. -/
theorem walk_toured (text : String) (h : (read text).isWellFormed = true) : Toured text := by
  have hplain := plain h
  have hfollow := Document.visits_follow hplain.row
  refine ⟨fun v hv s => Tree.walk_eq_foldl hv _ s, ?_, Document.visits_complete _, ?_, ?_, ?_, ?_⟩
  · rw [Document.filterMap_head?]
    exact Tree.filterMap_entered? _
  · exact fun _ _ n _ => Construct.kind_ne_name n.construct
  · refine hfollow.imp_of_mem fun hv hw hfollows => ?_
    rintro n m above above' rfl rfl
    exact span_start_le hplain (within_of_mem_visits hplain hv) (within_of_mem_visits hplain hw)
      hfollows.first_le
  · intro n m above hmem
    have hn := within_of_mem_visits hplain hmem
    rw [Document.visits_eq_flatMap] at hmem
    rcases hplain.row.visits_nested [] n m above hmem with heq | ⟨hm, hfirst, hstop⟩
    · cases heq
    · exact ⟨span_start_le hplain hm hn hfirst, span_stop_le hplain hn hm hstop⟩
  · refine hfollow.imp_of_mem fun hv hw hfollows => ?_
    rintro n m above rfl rfl
    exact span_stop_le_start hplain (within_of_mem_visits hplain hv)
      (within_of_mem_visits hplain hw) hfollows.behind_of_siblings

/-- Directives on constructs of all kinds, values inside of values, default values, and what
a text may leave out. -/
def windingText : String :=
  "query Q($a: [I] = [1 [\x7bb: C\x7d]] @d(x: 2) $e: E) @d" ++
  " \x7b f: g(h: \x7bi: [$a]\x7d j) @d \x7b ...F @d ... on T @d \x7b k \x7d \x7d \x7d fragment F on T @d \x7b l \x7d" ++
  " \"T\" type T implements N & M @d \x7b \"o\" o(p: P = \x7bq: 1\x7d @d): R @d s: S \x7d" ++
  " extend enum U @d \x7b \"V\" V @d W \x7d input X \x7b y: Y = Z @d \x7d" ++
  " directive @d(x: Int = 0) repeatable on FIELD | QUERY schema @d \x7b query: T \x7d"

theorem walk_toured_winding : (read windingText).isWellFormed = true ∧ Toured windingText :=
  have h : (read windingText).isWellFormed = true := by decide +kernel
  ⟨h, walk_toured _ h⟩

/-- The nodes of a walk, each with the number of nodes it is inside of. -/
example :
    (read "\x7b a: b(c: [1 \x7bd: E\x7d]) @f \x7d").document.visits.map
        (fun v => (v.length - 1, (v.head?.map Node.label).getD "")) =
      [(0, "Document"), (1, "OperationDefinition"), (2, "SelectionSet"), (3, "Field:b"),
       (4, "Argument:c"), (5, "ListValue"), (6, "IntValue"), (6, "ObjectValue"),
       (7, "ObjectField:d"), (8, "EnumValue:E"), (4, "Directive:f")] := by
  decide +kernel

end Source

end GraphLint
