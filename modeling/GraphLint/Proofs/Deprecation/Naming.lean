import GraphLint.Proofs.Deprecation.Exact

/-!
# Uses are named where they are

Elements are looked up by the names that are written at their nodes, so the element that is
used at a node has the name of the node (`Position.element_enter`), and every use of a tree is
at a node with the name of what it uses (`Tree.exists_of_mem_used`).
-/

set_option autoImplicit false

namespace GraphLint

namespace Element

/-- The name of an element, without that of what it belongs to. -/
def name : Element → String
  | field _ f => f.name
  | argument _ a => a.name
  | inputField _ f => f.name
  | enumValue _ v => v.name

/-- A node of the right kind has the name of the element. -/
def WrittenAt (n : Node) : Element → Prop
  | field _ f => n.construct = .field ∧ n.nameText = some f.name
  | argument _ a => (∃ owner, n.construct = .argument owner) ∧ n.nameText = some a.name
  | inputField _ f => n.construct = .objectField ∧ n.nameText = some f.name
  | enumValue _ v => n.construct = .value .enum ∧ n.nameText = some v.name

theorem WrittenAt.nameText {n : Node} {e : Element} (h : e.WrittenAt n) :
    n.nameText = some e.name := by
  cases e <;> exact h.2

end Element

/-- A field is found under its own name. -/
theorem TypeSystem.name_of_field? {s : TypeSystem} {parent name : String} {f : FieldDef}
    (h : s.field? parent name = some f) : f.name = name := by
  obtain ⟨t, -, h⟩ := Option.bind_eq_some_iff.mp h
  split at h
  · next htypename =>
      cases h
      exact htypename.1.symm
  split at h
  · next hschema =>
      cases h
      exact hschema.1.symm
  split at h
  · next htype =>
      cases h
      exact htype.1.symm
  · simpa using List.find?_some h

namespace Position

/-- The element that is used at a node is named there. -/
theorem element_enter {p : Position} {n : Node} {e : Element}
    (h : (p.enter n).element n = some e) : e.WrittenAt n := by
  obtain ⟨construct, name, extent⟩ := n
  cases construct with
  | field =>
      obtain ⟨t, -, h⟩ := Option.bind_eq_some_iff.mp h
      obtain ⟨f, hf, rfl⟩ := Option.map_eq_some_iff.mp h
      have hselected : p.selectedField (name.map (·.text)) = some f := hf
      obtain ⟨parent, -, hselected⟩ := Option.bind_eq_some_iff.mp hselected
      obtain ⟨text, htext, hfound⟩ := Option.bind_eq_some_iff.mp hselected
      exact ⟨rfl, TypeSystem.name_of_field? hfound ▸ htext⟩
  | argument owner =>
      obtain ⟨o, -, h⟩ := Option.bind_eq_some_iff.mp h
      obtain ⟨a, ha, rfl⟩ := Option.map_eq_some_iff.mp h
      have hgiven : p.givenArgument owner (name.map (·.text)) = some a := ha
      obtain ⟨text, htext, hgiven⟩ := Option.bind_eq_some_iff.mp hgiven
      have hname : a.name = text := by
        cases owner with
        | directive =>
            obtain ⟨d, -, hfound⟩ := Option.bind_eq_some_iff.mp hgiven
            simpa using List.find?_some hfound
        | field =>
            obtain ⟨f, -, hfound⟩ := Option.bind_eq_some_iff.mp hgiven
            simpa using List.find?_some hfound
      exact ⟨⟨owner, rfl⟩, hname ▸ htext⟩
  | objectField =>
      obtain ⟨t, -, h⟩ := Option.bind_eq_some_iff.mp h
      obtain ⟨text, htext, h⟩ := Option.bind_eq_some_iff.mp h
      obtain ⟨f, hfound, rfl⟩ := Option.map_eq_some_iff.mp h
      have hname : f.name = text := by simpa using List.find?_some hfound
      exact ⟨rfl, hname ▸ htext⟩
  | value kind =>
      cases kind with
      | enum =>
          obtain ⟨t, -, h⟩ := Option.bind_eq_some_iff.mp h
          obtain ⟨v, hv, rfl⟩ := Option.map_eq_some_iff.mp h
          have hnamed : p.namedEnumValue (name.map (·.text)) = some v := hv
          obtain ⟨t', -, hnamed⟩ := Option.bind_eq_some_iff.mp hnamed
          obtain ⟨text, htext, hfound⟩ := Option.bind_eq_some_iff.mp hnamed
          have hname : v.name = text := by simpa using List.find?_some hfound
          exact ⟨rfl, hname ▸ htext⟩
      | _ => cases h
  | _ => cases h

end Position

namespace Tree

mutual

/-- What is used in a tree is used at a node that has its name. -/
theorem exists_of_mem_used (p : Position) :
    ∀ (t : Tree) {u : Use}, u ∈ t.used p →
      ∃ n ∈ t.nodes, u.culprit = n.culprit ∧ ∀ e, u.element = some e → e.WrittenAt n
  | .node root children, u, hu => by
      rw [used_node, List.mem_append] at hu
      rcases hu with hu | hu
      · have huse := Option.mem_toList.mp hu
        unfold Hearing.use? at huse
        dsimp only at huse
        split at huse
        · cases huse
          exact ⟨root, List.mem_cons_self, rfl, fun e he => Position.element_enter he⟩
        · cases huse
      · obtain ⟨n, hn, hwritten⟩ := exists_of_mem_usedAll (p.enter root) children hu
        exact ⟨n, List.mem_cons_of_mem root hn, hwritten⟩

theorem exists_of_mem_usedAll (p : Position) :
    ∀ (ts : List Tree) {u : Use}, u ∈ usedAll p ts →
      ∃ n ∈ nodesAll ts, u.culprit = n.culprit ∧ ∀ e, u.element = some e → e.WrittenAt n
  | [], _, hu => absurd hu List.not_mem_nil
  | t :: ts, u, hu => by
      rw [usedAll_cons, List.mem_append] at hu
      rcases hu with hu | hu
      · obtain ⟨n, hn, hwritten⟩ := exists_of_mem_used p t hu
        exact ⟨n, List.mem_append_left _ hn, hwritten⟩
      · obtain ⟨n, hn, hwritten⟩ := exists_of_mem_usedAll p ts hu
        exact ⟨n, List.mem_append_right _ hn, hwritten⟩

end

end Tree

end GraphLint
