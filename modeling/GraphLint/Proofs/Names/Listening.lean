import GraphLint.Proofs.Document.Nesting
import GraphLint.Proofs.Run.Isolation
import GraphLint.Rule.UniqueNames

/-!
# How the rules about names listen

The rule of a namespace makes something of the nodes that declare a name there
(`Namespace.note`), skips them, and makes nothing of all others.  Rules of several
namespaces that are read a tree therefore come out of it with what they made of its
root, if nothing inside declares a name (`hearAll_root`).  Whether a rule skips the root
makes no difference: what is inside is passed over by the one and ignored by the
other.
-/

set_option autoImplicit false

namespace GraphLint

/-! ## Nodes that are ignored -/

section

variable {V : Type} {tracker : Tracker V}

/-- A rule makes nothing of a node, whatever it is shown. -/
structure Rule.Ignores (r : Rule V) (n : Node) : Prop where
  /-- When the node is entered. -/
  enter : ∀ view s, r.enter view n s = .ok ⟨s, [], .descend⟩
  /-- When the node is left. -/
  leave : ∀ view s, r.leave view n s = .ok (s, [])

/-- A listener inside of a node that it ignores: one more node is open inside of what
it skips, if it skips something. -/
def Listener.inside (l : Listener V) : Listener V :=
  match l.muted with
  | 0 => l
  | muted + 1 => { l with muted := muted + 2 }

theorem Listener.rule_inside (l : Listener V) : l.inside.rule = l.rule := by
  unfold inside
  split <;> rfl

namespace Audience

/-- The audience inside of a node that it ignores. -/
def inside (a : Audience V) : Audience V := ⟨a.listeners.map Listener.inside, a.diagnostics⟩

theorem hear_enter_ignored {a : Audience V} {n : Node} (hn : ∀ l ∈ a.listeners, l.rule.Ignores n)
    (view : V) : a.hear ⟨.enter n, view⟩ = .ok a.inside := by
  refine hear_eq_ok_iff.mpr ⟨a.inside.listeners.map fun l => (l, []), ?_, ?_⟩
  · show List.Forall₂ _ _ ((a.listeners.map _).map _)
    rw [List.forall₂_map_right_iff, List.forall₂_map_right_iff, List.forall₂_same]
    intro l hl
    have hignores := hn l hl
    obtain ⟨rule, state, muted⟩ := l
    cases muted with
    | zero =>
        have henter := hignores.enter view state
        simp only [Listener.hear]
        rw [henter]
        rfl
    | succ m => rfl
  · rw [flatMap_said_silent, List.append_nil, List.map_map]
    exact congrArg (Audience.mk · a.diagnostics) (List.map_id a.inside.listeners).symm

theorem hear_leave_ignored {a : Audience V} {n : Node} (hn : ∀ l ∈ a.listeners, l.rule.Ignores n)
    (view : V) : a.inside.hear ⟨.leave n, view⟩ = .ok a := by
  refine hear_eq_ok_iff.mpr ⟨a.listeners.map fun l => (l, []), ?_, ?_⟩
  · show List.Forall₂ _ (a.listeners.map _) _
    rw [List.forall₂_map_left_iff, List.forall₂_map_right_iff, List.forall₂_same]
    intro l hl
    have hignores := hn l hl
    obtain ⟨rule, state, muted⟩ := l
    cases muted with
    | zero =>
        have hleave := hignores.leave view state
        simp only [Listener.inside, Listener.hear]
        rw [hleave]
    | succ m => rfl
  · rw [flatMap_said_silent, List.append_nil, List.map_map]
    exact congrArg (Audience.mk · a.diagnostics) (List.map_id a.listeners).symm

mutual

/-- Rules come out of a tree that they ignore as they went in. -/
theorem hearAll_ignored (view : V) :
    ∀ (t : Tree) {a : Audience V}, (∀ n ∈ t.nodes, ∀ l ∈ a.listeners, l.rule.Ignores n) →
      a.hearAll (t.hearings tracker view) = .ok a
  | .node root children, a, ha => by
      rw [Tree.nodes, List.forall_mem_cons] at ha
      obtain ⟨hroot, hchildren⟩ := ha
      have hinside : ∀ n ∈ Tree.nodesAll children, ∀ l ∈ a.inside.listeners, l.rule.Ignores n := by
        intro n hn l hl
        obtain ⟨m, hm, rfl⟩ := List.mem_map.mp hl
        rw [Listener.rule_inside]
        exact hchildren n hn m hm
      rw [Tree.hearings, hearAll_cons, hear_enter_ignored hroot]
      show a.inside.hearAll (_ ++ _) = _
      rw [hearAll_append, hearAll_ignored_all _ children hinside]
      show a.inside.hearAll [_] = _
      rw [hearAll_singleton]
      exact hear_leave_ignored hroot _

theorem hearAll_ignored_all (view : V) :
    ∀ (ts : List Tree) {a : Audience V},
      (∀ n ∈ Tree.nodesAll ts, ∀ l ∈ a.listeners, l.rule.Ignores n) →
      a.hearAll (Tree.hearingsAll tracker view ts) = .ok a
  | [], _, _ => rfl
  | t :: ts, a, ha => by
      rw [Tree.nodesAll, List.forall_mem_append] at ha
      rw [Tree.hearingsAll, hearAll_append, hearAll_ignored view t ha.1]
      exact hearAll_ignored_all view ts ha.2

end

end Audience

end

/-! ## The rule of a namespace -/

namespace Namespace

/-- What the rule of a namespace makes of a node, where `known` holds the first
declaration of each name so far: the declarations known from now on, and the reports. -/
def note (space : Namespace) (schema : Option TypeSystem) (known : List Name) (n : Node) :
    List Name × List Report :=
  if space.declares n.kind then
    match n.name with
    | some name => space.declare schema known name
    | none => (known, [])
  else (known, [])

end Namespace

section

variable {space : Namespace} {name description : String}

/-- A rule about names skips the nodes that declare one. -/
theorem enter_uniqueNames (schema : Option TypeSystem) (n : Node) (known : List Name) :
    (uniqueNames space name description).enter schema n known =
      .ok ⟨(space.note schema known n).1, (space.note schema known n).2,
        if space.declares n.kind then .skip else .descend⟩ := by
  simp only [uniqueNames, Namespace.note]
  cases space.declares n.kind <;> rfl

theorem uniqueNames_isTotal : (uniqueNames space name description).IsTotal :=
  ⟨fun schema n known => ⟨_, enter_uniqueNames schema n known⟩, fun _ _ _ => ⟨_, rfl⟩⟩

/-- A rule about names makes nothing of nodes that declare none. -/
theorem uniqueNames_ignores {n : Node} (hn : space.declares n.kind = false) :
    (uniqueNames space name description).Ignores n := by
  refine ⟨?_, fun _ _ => rfl⟩
  intro schema known
  unfold uniqueNames
  simp only [hn]
  rfl

end

/-! ## Rules of several namespaces -/

/-- A rule about names in the middle of a run. -/
structure Register where
  /-- The namespace. -/
  space : Namespace
  /-- The name of the rule. -/
  name : String
  /-- What the rule is for. -/
  description : String
  /-- The first declaration of each name so far. -/
  known : List Name

namespace Register

/-- The rule. -/
def rule (r : Register) : Rule (Option TypeSystem) := uniqueNames r.space r.name r.description

/-- The rule as a listener that skips nothing. -/
def listener (r : Register) : Listener (Option TypeSystem) := ⟨r.rule, r.known, 0⟩

/-- The rule behind a node. -/
def note (schema : Option TypeSystem) (n : Node) (r : Register) : Register :=
  { r with known := (r.space.note schema r.known n).1 }

/-- What the rule reports of a node. -/
def reports (schema : Option TypeSystem) (n : Node) (r : Register) : List (Diagnostic Extent) :=
  (r.space.note schema r.known n).2.map r.rule.stamp

/-- Rules about names with what they have reported. -/
def audience (rs : List Register) (ds : List (Diagnostic Extent)) :
    Audience (Option TypeSystem) :=
  ⟨rs.map listener, ds⟩

/-- The rules inside of a node that they have made something of. -/
def heldBy (schema : Option TypeSystem) (n : Node) (r : Register) :
    Listener (Option TypeSystem) :=
  ⟨r.rule, (r.space.note schema r.known n).1, if r.space.declares n.kind then 1 else 0⟩

theorem hear_enter (schema : Option TypeSystem) (n : Node) (rs : List Register)
    (ds : List (Diagnostic Extent)) :
    (audience rs ds).hear ⟨.enter n, schema⟩ =
      .ok ⟨rs.map (heldBy schema n), ds ++ rs.flatMap (reports schema n)⟩ := by
  refine Audience.hear_eq_ok_iff.mpr
    ⟨rs.map fun r => (r.heldBy schema n, (r.space.note schema r.known n).2), ?_, ?_⟩
  · show List.Forall₂ _ (rs.map listener) _
    rw [List.forall₂_map_left_iff, List.forall₂_map_right_iff, List.forall₂_same]
    intro r _
    have henter : r.rule.enter schema n r.known = _ := enter_uniqueNames schema n r.known
    simp only [listener, Listener.hear]
    rw [henter]
    unfold heldBy
    cases r.space.declares n.kind <;> rfl
  · rw [List.map_map, List.flatMap_map]
    rfl

theorem hear_leave (schema : Option TypeSystem) (n : Node) (rs : List Register)
    (ds : List (Diagnostic Extent)) :
    (⟨rs.map (heldBy schema n), ds⟩ : Audience (Option TypeSystem)).hear ⟨.leave n, schema⟩ =
      .ok (audience (rs.map (note schema n)) ds) := by
  refine Audience.hear_eq_ok_iff.mpr
    ⟨(rs.map fun r => (r.note schema n).listener).map fun l => (l, []), ?_, ?_⟩
  · show List.Forall₂ _ (rs.map (heldBy schema n)) _
    rw [List.map_map, List.forall₂_map_left_iff, List.forall₂_map_right_iff, List.forall₂_same]
    intro r _
    unfold heldBy
    cases r.space.declares n.kind <;> rfl
  · rw [Audience.flatMap_said_silent, List.append_nil, List.map_map, List.map_map, audience,
      List.map_map]
    rfl

/-- Rules about names come out of a tree with what they made of its root, if nothing
inside of it declares a name. -/
theorem hearAll_root {schema : Option TypeSystem} {root : Node} {children : List Tree}
    {rs : List Register}
    (hchildren : ∀ n ∈ Tree.nodesAll children, ∀ r ∈ rs, r.space.declares n.kind = false)
    (ds : List (Diagnostic Extent)) :
    (audience rs ds).hearAll ((Tree.node root children).hearings (.constant _) schema) =
      .ok (audience (rs.map (note schema root)) (ds ++ rs.flatMap (reports schema root))) := by
  have hignored : ∀ n ∈ Tree.nodesAll children, ∀ l ∈ rs.map (heldBy schema root),
      l.rule.Ignores n := by
    intro n hn l hl
    obtain ⟨r, hr, rfl⟩ := List.mem_map.mp hl
    exact uniqueNames_ignores (hchildren n hn r hr)
  rw [Tree.hearings, Audience.hearAll_cons]
  show ((audience rs ds).hear ⟨.enter root, schema⟩).bind _ = _
  rw [hear_enter]
  show Audience.hearAll (_ ++ _) _ = _
  rw [Audience.hearAll_append, Audience.hearAll_ignored_all _ _ hignored]
  show Audience.hearAll [_] _ = _
  rw [Audience.hearAll_singleton]
  exact hear_leave schema root rs _

end Register

end GraphLint
