import GraphLint.Proofs.Document.Commas
import GraphLint.Proofs.Document.Phrases

/-!
# Phrases one after another

In a text without faults the phrases that something consists of stand one behind another,
none of them reaching into the next, and those that a phrase consists of stand inside of it.
`Row` says so of phrases between two places of a text, and of all that they consist of.
-/

set_option autoImplicit false

namespace GraphLint

/-- How a phrase stands in a text of these tokens. -/
structure Phrase.Stands (tokens : List Token) (p : Phrase) (n : Node) : Prop where
  /-- There is a token in it. -/
  nonempty : n.extent.first < n.extent.stop
  /-- Its name is one of its tokens. -/
  name : ∀ m, n.name = some m →
    m.IsAmong tokens ∧ n.extent.first ≤ m.token ∧ m.token < n.extent.stop
  /-- The name of a definition does not come first in it. -/
  lead : p.IsDefinition → ∀ m, n.name = some m → n.extent.first < m.token
  /-- An alias comes first. -/
  aliased : ∀ m, p.alias? = some m → m.IsAmong tokens ∧ m.token = n.extent.first

/-- Phrases that stand one behind another between two places of a text, each with its parts
inside of it.  A phrase that the text leaves out takes no place. -/
inductive Row (tokens : List Token) : Nat → List Phrase → Nat → Prop
  | nil {first stop : Nat} (h : first ≤ stop) : Row tokens first [] stop
  | skip {first stop : Nat} {p : Phrase} {ps : List Phrase} (hp : p.node? = none)
    (hps : Row tokens first ps stop) : Row tokens first (p :: ps) stop
  | cons {first stop : Nat} {p : Phrase} {n : Node} {ps : List Phrase} (hp : p.node? = some n)
    (hfirst : first ≤ n.extent.first) (hn : p.Stands tokens n)
    (hparts : Row tokens n.extent.first p.parts n.extent.stop)
    (hps : Row tokens n.extent.stop ps stop) : Row tokens first (p :: ps) stop

namespace Row

variable {tokens : List Token} {first mid stop : Nat} {p : Phrase} {n : Node} {ps qs : List Phrase}

theorem le (h : Row tokens first ps stop) : first ≤ stop := by
  induction h with
  | nil h => exact h
  | skip _ _ ih => exact ih
  | cons _ hfirst hn _ _ _ ih =>
      exact Nat.le_trans hfirst (Nat.le_trans (Nat.le_of_lt hn.nonempty) ih)

theorem missing (hp : p.node? = none) (h : first ≤ stop) : Row tokens first [p] stop :=
  .skip hp (.nil h)

theorem single (hp : p.node? = some n) (hfirst : first ≤ n.extent.first)
    (hstop : n.extent.stop ≤ stop) (hn : p.Stands tokens n)
    (hparts : Row tokens n.extent.first p.parts n.extent.stop) : Row tokens first [p] stop :=
  .cons hp hfirst hn hparts (.nil hstop)

theorem from_le (h : Row tokens mid ps stop) (hfirst : first ≤ mid) : Row tokens first ps stop := by
  induction h with
  | nil h => exact .nil (Nat.le_trans hfirst h)
  | skip hp _ ih => exact .skip hp (ih hfirst)
  | cons hp hmid hn hparts hps => exact .cons hp (Nat.le_trans hfirst hmid) hn hparts hps

theorem append (hps : Row tokens first ps mid) (hqs : Row tokens mid qs stop) :
    Row tokens first (ps ++ qs) stop := by
  induction hps with
  | nil h => exact hqs.from_le h
  | skip hp _ ih => exact .skip hp (ih hqs)
  | cons hp hfirst hn hparts _ _ ih => exact .cons hp hfirst hn hparts (ih hqs)

/-- There may be more room on either side. -/
theorem widen {first' stop' : Nat} (h : Row tokens first ps stop) (hfirst : first' ≤ first)
    (hstop : stop ≤ stop') : Row tokens first' ps stop' := by
  have hpadded := (h.from_le hfirst).append (.nil hstop)
  rwa [List.append_nil] at hpadded

/-- Phrases that are read one after another stand one behind another. -/
theorem chain {α : Type} (make : α → Phrase) :
    Production.Chain (fun i a j => Row tokens i [make a] j)
      fun i as j => Row tokens i (as.map make) j :=
  ⟨.nil, fun ha has => ha.append has⟩

/-- What stands in a row. -/
theorem of_mem (h : Row tokens first ps stop) (hmem : p ∈ ps) (hp : p.node? = some n) :
    first ≤ n.extent.first ∧ n.extent.stop ≤ stop ∧ p.Stands tokens n ∧
      Row tokens n.extent.first p.parts n.extent.stop := by
  induction h with
  | nil _ => cases hmem
  | skip hq _ ih =>
      rcases List.mem_cons.mp hmem with rfl | hmem
      · rw [hq] at hp
        cases hp
      · exact ih hmem
  | @cons first stop q m ps hq hfirst hm hparts hps _ ih =>
      rcases List.mem_cons.mp hmem with rfl | hmem
      · obtain rfl := Option.some.inj (hq.symm.trans hp)
        exact ⟨hfirst, hps.le, hm, hparts⟩
      · obtain ⟨hbehind, hrest⟩ := ih hmem
        have hnonempty := hm.nonempty
        exact ⟨by omega, hrest⟩

/-- What phrases in a row lead to stands somewhere in the row. -/
theorem of_leads {above route : List Node} {path : List Nat} {q : Phrase} {m : Node}
    (h : Row tokens first ps stop) (hmem : p ∈ ps) (hleads : p.Leads above path route q)
    (hq : q.node? = some m) :
    first ≤ m.extent.first ∧ m.extent.stop ≤ stop ∧ q.Stands tokens m := by
  induction hleads generalizing first stop ps with
  | here =>
      obtain ⟨hfirst, hstop, hm, -⟩ := h.of_mem hmem hq
      exact ⟨hfirst, hstop, hm⟩
  | inside hn hpart _ ih =>
      obtain ⟨hfirst, hstop, -, hparts⟩ := h.of_mem hmem hn
      obtain ⟨hfirst', hstop', hm⟩ := ih hparts (List.mem_of_getElem? hpart) hq
      exact ⟨Nat.le_trans hfirst hfirst', Nat.le_trans hstop' hstop, hm⟩

end Row

end GraphLint
