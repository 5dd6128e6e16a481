import GraphLint.Walk
import Mathlib.Data.List.Infix

/-!
# What a walk leaves out

A visitor may ask to skip a node, and its answers may depend on all that it has been told
before.  What it is told is all that happens on a walk that skips nothing, without the
events inside of skipped nodes and without the leaves of these nodes
(`Tree.walk_heard`).

The same node may stand in a tree more than once, so events are told apart by where they
happen.  A `Step` is an event together with the numbers of the children on the way down to
its node.  The paths of the skipped nodes are read off the steps that the visitor is told of
(`Visitor.skipped`): each answer is the one that it gives after all steps before.
-/

set_option autoImplicit false

universe u

namespace GraphLint

/-! ## Steps -/

/-- Something that happens on a walk, and where. -/
structure Step where
  /-- The numbers of the children on the way down to the node. -/
  path : List Nat
  /-- What happens. -/
  event : Event
  deriving DecidableEq, Repr

/-- The part of a tree at a path. -/
def Tree.at? : Tree → List Nat → Option Tree
  | t, [] => some t
  | .node _ children, i :: path =>
    match children[i]? with
    | some t => t.at? path
    | none => none

mutual

/-- Everything that happens on a walk that skips nothing, through a tree at a path. -/
def Tree.steps (path : List Nat) : Tree → List Step
  | .node root children =>
    ⟨path, .enter root⟩ :: (Tree.stepsFrom path 0 children ++ [⟨path, .leave root⟩])

/-- The same for children of the node at a path, which are numbered from some number on. -/
def Tree.stepsFrom (path : List Nat) (i : Nat) : List Tree → List Step
  | [] => []
  | t :: ts => t.steps (path ++ [i]) ++ Tree.stepsFrom path (i + 1) ts

end

/-- Whether a node is left. -/
def Event.isLeave : Event → Bool
  | enter _ => false
  | leave _ => true

/-- Whether a step is left out where the nodes at some paths are skipped: it happens inside
of one of them, or is the leave of one. -/
def Step.isOmitted (skipped : List (List Nat)) (x : Step) : Bool :=
  skipped.any fun q => decide (q <+: x.path) && (x.event.isLeave || decide (q ≠ x.path))

namespace Step

variable {skipped : List (List Nat)} {p : List Nat} {n : Node}

theorem isOmitted_enter : isOmitted skipped ⟨p, .enter n⟩ = false ↔
    ∀ q ∈ skipped, q <+: p → q = p := by
  simp [isOmitted, Event.isLeave]

theorem isOmitted_leave : isOmitted skipped ⟨p, .leave n⟩ = false ↔
    ∀ q ∈ skipped, ¬q <+: p := by
  simp [isOmitted, Event.isLeave]

/-- A node that is entered and not skipped is left. -/
theorem isOmitted_leave_of_enter (henter : isOmitted skipped ⟨p, .enter n⟩ = false)
    (hp : p ∉ skipped) (m : Node) : isOmitted skipped ⟨p, .leave m⟩ = false := by
  rw [isOmitted_enter] at henter
  exact isOmitted_leave.mpr fun q hq hbegins => hp (henter q hq hbegins ▸ hq)

/-- A node that is skipped is not left. -/
theorem isOmitted_leave_of_mem (hp : p ∈ skipped) (n : Node) :
    isOmitted skipped ⟨p, .leave n⟩ = true := by
  rw [← Bool.not_eq_false, isOmitted_leave]
  exact fun h => h p hp (List.prefix_refl p)

/-- What happens below a skipped node is left out. -/
theorem isOmitted_of_below {x : Step} {q : List Nat} (hq : q ∈ skipped) (hx : q <+: x.path)
    (hne : x.path ≠ q) : x.isOmitted skipped = true := by
  refine List.any_eq_true.mpr ⟨q, hq, ?_⟩
  simp [hx, hne.symm]

theorem isOmitted_append (x : Step) (skipped others : List (List Nat)) :
    x.isOmitted (skipped ++ others) = (x.isOmitted skipped || x.isOmitted others) :=
  List.any_append

/-- Nodes that are not on the way down to a step do not matter for it. -/
theorem isOmitted_eq_false {x : Step} (h : ∀ q ∈ skipped, ¬q <+: x.path) :
    x.isOmitted skipped = false :=
  List.any_eq_false.mpr fun q hq => by simp [h q hq]

/-- Steps without what is left out where the nodes at some paths are skipped. -/
def without (skipped : List (List Nat)) (steps : List Step) : List Step :=
  steps.filter (!·.isOmitted skipped)

theorem mem_without {x : Step} {steps : List Step} :
    x ∈ without skipped steps ↔ x ∈ steps ∧ x.isOmitted skipped = false := by
  simp [without]

theorem without_append (skipped : List (List Nat)) (xs ys : List Step) :
    without skipped (xs ++ ys) = without skipped xs ++ without skipped ys :=
  List.filter_append ..

theorem without_cons {x : Step} (hx : x.isOmitted skipped = false) (xs : List Step) :
    without skipped (x :: xs) = x :: without skipped xs :=
  List.filter_cons_of_pos (by simp [hx])

theorem without_eq_nil {xs : List Step} (h : ∀ x ∈ xs, x.isOmitted skipped = true) :
    without skipped xs = [] :=
  List.filter_eq_nil_iff.mpr fun x hx => by simp [h x hx]

theorem without_congr {others : List (List Nat)} {xs : List Step}
    (h : ∀ x ∈ xs, x.isOmitted skipped = x.isOmitted others) :
    without skipped xs = without others xs :=
  List.filter_congr fun x hx => by rw [h x hx]

end Step

/-- What happens inside of a node, other than its own events. -/
def Inside (p : List Nat) (steps : List Step) : Prop :=
  ∀ x ∈ steps, p <+: x.path ∧ x.path ≠ p

theorem Inside.isOmitted {skipped : List (List Nat)} {p : List Nat} {steps : List Step}
    (h : Inside p steps) (hp : p ∈ skipped) : ∀ x ∈ steps, x.isOmitted skipped = true :=
  fun x hx => Step.isOmitted_of_below hp (h x hx).1 (h x hx).2

/-! ## Where steps are -/

/-- Paths through different children lead to different places. -/
theorem not_prefix_of_ne {path a b : List Nat} {i j : Nat} (h : i ≠ j) :
    ¬(path ++ i :: a) <+: (path ++ j :: b) := by
  rw [List.prefix_append_right_inj, List.cons_prefix_cons]
  exact fun hbegins => h hbegins.1

theorem branch_lt {path a b : List Nat} {i j : Nat} (h : i < j) :
    path ++ i :: a < path ++ j :: b :=
  List.append_left_lt (List.cons_lt_cons_iff.mpr (.inl h))

theorem lt_below (path a : List Nat) (i : Nat) : path < path ++ i :: a := by
  have h : path ++ [] < path ++ i :: a := List.append_left_lt (List.nil_lt_cons i a)
  rwa [List.append_nil] at h

theorem not_below_prefix (path a : List Nat) (i : Nat) : ¬(path ++ i :: a) <+: path := by
  intro h
  have hlength := h.length_le
  rw [List.length_append, List.length_cons] at hlength
  omega

namespace Tree

mutual

/-- The steps of a tree are the events of the nodes in it. -/
theorem mem_steps_iff {path : List Nat} {x : Step} : ∀ t : Tree, x ∈ t.steps path ↔
    ∃ rest n children, x.path = path ++ rest ∧ t.at? rest = some (.node n children) ∧
      (x.event = .enter n ∨ x.event = .leave n)
  | .node root children => by
      obtain ⟨p, e⟩ := x
      rw [steps, List.mem_cons, List.mem_append, List.mem_singleton, mem_stepsFrom_iff children]
      constructor
      · rintro (h | ⟨j, rest, t, n, cs, hp, ht, hrest, he⟩ | h)
        · cases h
          exact ⟨[], root, children, (List.append_nil _).symm, rfl, .inl rfl⟩
        · refine ⟨j :: rest, n, cs, ?_, ?_, he⟩
          · rw [hp, Nat.zero_add]
          · rw [at?, ht]
            exact hrest
        · cases h
          exact ⟨[], root, children, (List.append_nil _).symm, rfl, .inr rfl⟩
      · rintro ⟨_ | ⟨j, rest⟩, n, cs, hp, hat, he⟩
        · cases hat
          obtain rfl : p = path := hp.trans (List.append_nil _)
          rcases he with rfl | rfl
          · exact .inl rfl
          · exact .inr (.inr rfl)
        · rw [at?] at hat
          cases ht : children[j]? with
          | none =>
              rw [ht] at hat
              cases hat
          | some t =>
              rw [ht] at hat
              exact .inr (.inl ⟨j, rest, t, n, cs, by rw [hp, Nat.zero_add], ht, hat, he⟩)

theorem mem_stepsFrom_iff {path : List Nat} {i : Nat} {x : Step} :
    ∀ ts : List Tree, x ∈ stepsFrom path i ts ↔
      ∃ j rest t n children, x.path = path ++ (i + j) :: rest ∧ ts[j]? = some t ∧
        t.at? rest = some (.node n children) ∧ (x.event = .enter n ∨ x.event = .leave n)
  | [] => by simp [stepsFrom]
  | t :: ts => by
      rw [stepsFrom, List.mem_append, mem_steps_iff t, mem_stepsFrom_iff ts]
      constructor
      · rintro (⟨rest, n, cs, hp, hat, he⟩ | ⟨j, rest, u, n, cs, hp, hu, hat, he⟩)
        · exact ⟨0, rest, t, n, cs, by simpa using hp, rfl, hat, he⟩
        · exact ⟨j + 1, rest, u, n, cs, by rw [hp, Nat.add_right_comm, Nat.add_assoc], hu, hat, he⟩
      · rintro ⟨_ | j, rest, u, n, cs, hp, hu, hat, he⟩
        · cases hu
          exact .inl ⟨rest, n, cs, by simpa using hp, hat, he⟩
        · exact .inr ⟨j, rest, u, n, cs, by rw [hp, Nat.add_right_comm, Nat.add_assoc], hu, hat, he⟩

end

theorem prefix_of_mem_steps {t : Tree} {path : List Nat} {x : Step} (h : x ∈ t.steps path) :
    path <+: x.path := by
  obtain ⟨rest, _, _, hp, -⟩ := (mem_steps_iff t).mp h
  exact ⟨rest, hp.symm⟩

theorem branch_of_mem_stepsFrom {ts : List Tree} {path : List Nat} {i : Nat} {x : Step}
    (h : x ∈ stepsFrom path i ts) : ∃ j rest, i ≤ j ∧ x.path = path ++ j :: rest := by
  obtain ⟨j, rest, _, _, _, hp, -⟩ := (mem_stepsFrom_iff ts).mp h
  exact ⟨i + j, rest, Nat.le_add_right i j, hp⟩

theorem inside_stepsFrom (path : List Nat) (i : Nat) (ts : List Tree) :
    Inside path (stepsFrom path i ts) := by
  intro x hx
  obtain ⟨j, rest, -, hpath⟩ := branch_of_mem_stepsFrom hx
  refine ⟨hpath ▸ List.prefix_append _ _, fun h => ?_⟩
  exact not_below_prefix path rest j (hpath ▸ h ▸ List.prefix_refl _)

mutual

theorem map_event_steps (path : List Nat) : ∀ t : Tree, (t.steps path).map (·.event) = t.events
  | .node root children => by
      rw [steps, events, List.map_cons, List.map_append, map_event_stepsFrom path 0 children]
      rfl

theorem map_event_stepsFrom (path : List Nat) :
    ∀ (i : Nat) (ts : List Tree), (stepsFrom path i ts).map (·.event) = eventsAll ts
  | _, [] => rfl
  | i, t :: ts => by
      rw [stepsFrom, eventsAll, List.map_append, map_event_steps (path ++ [i]) t,
        map_event_stepsFrom path (i + 1) ts]

end

end Tree

/-! ## What a visitor is told -/

namespace Visitor

variable {σ : Type u} (v : Visitor σ)

/-- Keeps a record of what a visitor is told. -/
def recording : Visitor (σ × List Event) where
  enter n s := (((v.enter n s.1).1, s.2 ++ [.enter n]), (v.enter n s.1).2)
  leave n s := (v.leave n s.1, s.2 ++ [.leave n])

/-- The state of a visitor that is told of an event, and its answer.  A visitor that is told
of a leave is not asked for one. -/
def answer (s : σ) : Event → σ × Control
  | .enter n => v.enter n s
  | .leave n => (v.leave n s, .descend)

/-- The state of a visitor that has been told of some steps. -/
def after (s : σ) (steps : List Step) : σ := steps.foldl (fun s x => (v.answer s x.event).1) s

/-- The paths of the nodes that a visitor asks to skip when it is told of some steps. -/
def skipped : σ → List Step → List (List Nat)
  | _, [] => []
  | s, x :: steps =>
    (if (v.answer s x.event).2 = .skip then [x.path] else []) ++
      skipped (v.answer s x.event).1 steps

theorem after_append (s : σ) (xs ys : List Step) :
    v.after s (xs ++ ys) = v.after (v.after s xs) ys :=
  List.foldl_append

theorem skipped_append (s : σ) (xs ys : List Step) :
    v.skipped s (xs ++ ys) = v.skipped s xs ++ v.skipped (v.after s xs) ys := by
  induction xs generalizing s with
  | nil => rfl
  | cons x xs ih =>
      rw [List.cons_append, skipped, skipped, ih, List.append_assoc]
      rfl

variable {v}

theorem exists_of_mem_skipped {s : σ} {steps : List Step} {q : List Nat}
    (h : q ∈ v.skipped s steps) : ∃ x ∈ steps, x.path = q := by
  induction steps generalizing s with
  | nil => cases h
  | cons x xs ih =>
      rw [skipped, List.mem_append] at h
      rcases h with h | h
      · split at h
        · exact ⟨x, List.mem_cons_self, (List.mem_singleton.mp h).symm⟩
        · cases h
      · obtain ⟨y, hy, rfl⟩ := ih h
        exact ⟨y, List.mem_cons_of_mem x hy, rfl⟩

/-- A visitor that begins in some state is told of these steps out of all that happen: of all
but those that are left out where it skips. -/
def Hears (v : Visitor σ) (s : σ) (all steps : List Step) : Prop :=
  steps = Step.without (v.skipped s steps) all

namespace Hears

variable {s : σ} {all steps : List Step}

theorem mem_all (h : v.Hears s all steps) {x : Step} (hx : x ∈ steps) : x ∈ all := by
  rw [h, Step.mem_without] at hx
  exact hx.1

theorem exists_of_mem_skipped (h : v.Hears s all steps) {q : List Nat}
    (hq : q ∈ v.skipped s steps) : ∃ x ∈ all, x.path = q := by
  obtain ⟨x, hx, hpath⟩ := Visitor.exists_of_mem_skipped hq
  exact ⟨x, h.mem_all hx, hpath⟩

/-- A node that is skipped. -/
theorem skip {path : List Nat} {root : Node} (children : List Tree)
    (hanswer : (v.enter root s).2 = .skip) :
    v.Hears s (Tree.steps path (.node root children)) [⟨path, .enter root⟩] := by
  have hskipped : v.skipped s [⟨path, .enter root⟩] = [path] := by
    simp [skipped, answer, hanswer]
  have henter : Step.isOmitted [path] ⟨path, .enter root⟩ = false :=
    Step.isOmitted_enter.mpr fun q hq _ => List.mem_singleton.mp hq
  have hpath : path ∈ [path] := List.mem_cons_self
  have hinside := (Tree.inside_stepsFrom path 0 children).isOmitted hpath
  have hleave := Step.isOmitted_leave_of_mem hpath root
  rw [Hears, hskipped, Tree.steps, Step.without_cons henter, Step.without_append,
    Step.without_eq_nil hinside, Step.without_eq_nil (List.forall_mem_singleton.mpr hleave)]
  rfl

/-- A node that is not skipped. -/
theorem descend {path : List Nat} {root : Node} {children : List Tree} {inside : List Step}
    (hanswer : (v.enter root s).2 = .descend)
    (h : v.Hears (v.enter root s).1 (Tree.stepsFrom path 0 children) inside) :
    v.Hears s (Tree.steps path (.node root children))
      (⟨path, .enter root⟩ :: (inside ++ [⟨path, .leave root⟩])) := by
  have hskipped : v.skipped s (⟨path, .enter root⟩ :: (inside ++ [⟨path, .leave root⟩])) =
      v.skipped (v.enter root s).1 inside := by
    simp [skipped, skipped_append, answer, hanswer]
  -- What is skipped inside is below the node, so it does not matter for the node itself.
  have hkeeps : ∀ e, Step.isOmitted (v.skipped (v.enter root s).1 inside) ⟨path, e⟩ = false := by
    refine fun e => Step.isOmitted_eq_false fun q hq => ?_
    obtain ⟨x, hx, rfl⟩ := h.exists_of_mem_skipped hq
    obtain ⟨j, rest, -, hpath⟩ := Tree.branch_of_mem_stepsFrom hx
    rw [hpath]
    exact not_below_prefix path rest j
  rw [Hears, hskipped, Tree.steps, Step.without_cons (hkeeps _), Step.without_append, ← h,
    Step.without_cons (hkeeps _)]
  rfl

/-- A tree, and the trees behind it. -/
theorem cons {path : List Nat} {i : Nat} {t : Tree} {ts : List Tree} {first rest : List Step}
    (hfirst : v.Hears s (t.steps (path ++ [i])) first)
    (hrest : v.Hears (v.after s first) (Tree.stepsFrom path (i + 1) ts) rest) :
    v.Hears s (Tree.stepsFrom path i (t :: ts)) (first ++ rest) := by
  have happart : ∀ x ∈ t.steps (path ++ [i]), ∀ y ∈ Tree.stepsFrom path (i + 1) ts,
      ¬y.path <+: x.path ∧ ¬x.path <+: y.path := by
    intro x hx y hy
    obtain ⟨a, ha⟩ := Tree.prefix_of_mem_steps hx
    obtain ⟨j, b, hj, hb⟩ := Tree.branch_of_mem_stepsFrom hy
    rw [List.append_assoc, List.singleton_append] at ha
    rw [← ha, hb]
    exact ⟨not_prefix_of_ne (by omega), not_prefix_of_ne (by omega)⟩
  -- What is skipped in one of them does not matter for the other ones.
  have hearlier : ∀ y ∈ Tree.stepsFrom path (i + 1) ts,
      y.isOmitted (v.skipped s first) = false := by
    refine fun y hy => Step.isOmitted_eq_false fun q hq => ?_
    obtain ⟨x, hx, rfl⟩ := hfirst.exists_of_mem_skipped hq
    exact (happart x hx y hy).2
  have hlater : ∀ x ∈ t.steps (path ++ [i]),
      x.isOmitted (v.skipped (v.after s first) rest) = false := by
    refine fun x hx => Step.isOmitted_eq_false fun q hq => ?_
    obtain ⟨y, hy, rfl⟩ := hrest.exists_of_mem_skipped hq
    exact (happart x hx y hy).1
  rw [Hears, skipped_append, Tree.stepsFrom, Step.without_append]
  refine congrArg₂ (· ++ ·) ?_ ?_
  · refine hfirst.trans (Step.without_congr fun x hx => ?_)
    rw [Step.isOmitted_append, hlater x hx, Bool.or_false]
  · refine hrest.trans (Step.without_congr fun y hy => ?_)
    rw [Step.isOmitted_append, hearlier y hy, Bool.false_or]

end Hears

end Visitor

/-! ## Walks -/

namespace Tree

variable {σ : Type u}

mutual

/-- What a visitor is told on a walk. -/
theorem exists_hears (v : Visitor σ) : ∀ (t : Tree) (path : List Nat) (s : σ),
    ∃ steps, v.Hears s (t.steps path) steps ∧ t.walk v s = v.after s steps ∧
      ∀ log, t.walk v.recording (s, log) = (v.after s steps, log ++ steps.map (·.event))
  | .node root children, path, s => by
      rcases hentered : v.enter root s with ⟨s', control⟩
      have hrecording : ∀ log, v.recording.enter root (s, log) =
          ((s', log ++ [.enter root]), control) := by
        intro log
        simp only [Visitor.recording, hentered]
      cases control with
      | skip =>
          refine ⟨_, .skip children (congrArg Prod.snd hentered), ?_, fun log => ?_⟩
          · simp [walk, Visitor.after, Visitor.answer, hentered]
          · simp [walk, Visitor.after, Visitor.answer, hentered, hrecording]
      | descend =>
          have hstate : (v.enter root s).1 = s' := congrArg Prod.fst hentered
          obtain ⟨inside, hinside, hwalk, hrecorded⟩ := exists_hears_all v children path 0 s'
          refine ⟨_, .descend (congrArg Prod.snd hentered) (hstate ▸ hinside), ?_, fun log => ?_⟩
          · rw [walk, hentered, ← List.cons_append, Visitor.after_append]
            show v.leave root (walkAll v children s') =
              v.leave root (v.after (v.enter root s).1 inside)
            rw [hwalk, hstate]
          · rw [walk, hrecording, ← List.cons_append, Visitor.after_append]
            show v.recording.leave root (walkAll v.recording children (s', log ++ [.enter root])) =
              (v.leave root (v.after (v.enter root s).1 inside), _)
            rw [hrecorded, hstate]
            simp [Visitor.recording]

theorem exists_hears_all (v : Visitor σ) : ∀ (ts : List Tree) (path : List Nat) (i : Nat) (s : σ),
    ∃ steps, v.Hears s (stepsFrom path i ts) steps ∧ walkAll v ts s = v.after s steps ∧
      ∀ log, walkAll v.recording ts (s, log) = (v.after s steps, log ++ steps.map (·.event))
  | [], _, _, _ => ⟨[], rfl, rfl, fun log => by rw [List.map_nil, List.append_nil]; rfl⟩
  | t :: ts, path, i, s => by
      obtain ⟨first, hfirst, hwalk, hrecorded⟩ := exists_hears v t (path ++ [i]) s
      obtain ⟨rest, hrest, hwalks, hrecordeds⟩ :=
        exists_hears_all v ts path (i + 1) (v.after s first)
      refine ⟨first ++ rest, hfirst.cons hrest, ?_, fun log => ?_⟩
      · rw [walkAll, hwalk, hwalks, Visitor.after_append]
      · rw [walkAll, hrecorded, hrecordeds, Visitor.after_append, List.map_append,
          List.append_assoc]

end

end Tree

/-! ## How steps nest -/

/-- What comes before a node and what comes after it.  In front are the enters of the nodes
around it and what stands before it in the tree; behind are the leaves of the nodes around
it and what stands after it in the tree. -/
structure Around (p : List Nat) (before after : List Step) : Prop where
  before : ∀ x ∈ before, x.path < p
  after : ∀ x ∈ after, ¬p <+: x.path ∧ (p < x.path ∨ x.event.isLeave = true ∧ x.path <+: p)

theorem Around.without {p : List Nat} {before after : List Step} (h : Around p before after)
    (skipped : List (List Nat)) :
    Around p (Step.without skipped before) (Step.without skipped after) :=
  ⟨fun x hx => h.before x (Step.mem_without.mp hx).1,
    fun x hx => h.after x (Step.mem_without.mp hx).1⟩

/-- Steps in which each node is left after what happens inside of it, unless it is skipped:
then nothing happens inside, and it is not left. -/
inductive Bracketed (skipped : List (List Nat)) : List Step → Prop
  | nil : Bracketed skipped []
  | passed {p : List Nat} {n : Node} {rest : List Step} (hp : p ∈ skipped)
    (hrest : Bracketed skipped rest) : Bracketed skipped (⟨p, .enter n⟩ :: rest)
  | entered {p : List Nat} {n : Node} {inside rest : List Step} (hp : p ∉ skipped)
    (hinside : Bracketed skipped inside) (hrest : Bracketed skipped rest) :
    Bracketed skipped (⟨p, .enter n⟩ :: (inside ++ ⟨p, .leave n⟩ :: rest))

theorem Bracketed.append {skipped : List (List Nat)} {xs ys : List Step}
    (hxs : Bracketed skipped xs) (hys : Bracketed skipped ys) : Bracketed skipped (xs ++ ys) := by
  induction hxs with
  | nil => exact hys
  | passed hp _ ih => exact .passed hp ih
  | entered hp hinside _ _ ih =>
      rw [List.cons_append, List.append_assoc, List.cons_append]
      exact .entered hp hinside ih

namespace Tree

mutual

/-- All that happens on a walk, seen from a node. -/
theorem exists_around {p : List Nat} {n : Node} : ∀ (t : Tree) (path : List Nat),
    ⟨p, .enter n⟩ ∈ t.steps path → ∃ before inside after,
      t.steps path = before ++ ⟨p, .enter n⟩ :: (inside ++ ⟨p, .leave n⟩ :: after) ∧
        Around p before after ∧ Inside p inside
  | .node root children, path, h => by
      rw [steps, List.mem_cons, List.mem_append, List.mem_singleton] at h
      rcases h with h | h | h
      · cases h
        exact ⟨[], _, [], rfl, ⟨nofun, nofun⟩, inside_stepsFrom p 0 children⟩
      · obtain ⟨before, inside, after, heq, haround, hinside⟩ :=
          exists_around_all children path 0 h
        obtain ⟨j, rest, -, hp⟩ := branch_of_mem_stepsFrom h
        change p = path ++ j :: rest at hp
        refine ⟨⟨path, .enter root⟩ :: before, inside, after ++ [⟨path, .leave root⟩], ?_,
          ⟨?_, ?_⟩, hinside⟩
        · rw [steps, heq]
          simp only [List.cons_append, List.append_assoc]
        · refine List.forall_mem_cons.mpr ⟨?_, haround.before⟩
          exact hp ▸ lt_below path rest j
        · intro x hx
          rcases List.mem_append.mp hx with hx | hx
          · exact haround.after x hx
          · obtain rfl := List.mem_singleton.mp hx
            exact ⟨hp ▸ not_below_prefix path rest j,
              .inr ⟨rfl, hp ▸ List.prefix_append path (j :: rest)⟩⟩
      · cases h

theorem exists_around_all {p : List Nat} {n : Node} :
    ∀ (ts : List Tree) (path : List Nat) (i : Nat),
      ⟨p, .enter n⟩ ∈ stepsFrom path i ts → ∃ before inside after,
        stepsFrom path i ts = before ++ ⟨p, .enter n⟩ :: (inside ++ ⟨p, .leave n⟩ :: after) ∧
          Around p before after ∧ Inside p inside
  | [], _, _, h => absurd h List.not_mem_nil
  | t :: ts, path, i, h => by
      rw [stepsFrom, List.mem_append] at h
      rcases h with h | h
      · obtain ⟨before, inside, after, heq, haround, hinside⟩ := exists_around t (path ++ [i]) h
        obtain ⟨rest, hp⟩ := prefix_of_mem_steps h
        change path ++ [i] ++ rest = p at hp
        rw [List.append_assoc, List.singleton_append] at hp
        refine ⟨before, inside, after ++ stepsFrom path (i + 1) ts, ?_,
          ⟨haround.before, ?_⟩, hinside⟩
        · rw [stepsFrom, heq]
          simp only [List.cons_append, List.append_assoc]
        · intro x hx
          rcases List.mem_append.mp hx with hx | hx
          · exact haround.after x hx
          · obtain ⟨j, a, hj, ha⟩ := branch_of_mem_stepsFrom hx
            rw [← hp, ha]
            exact ⟨not_prefix_of_ne (by omega), .inl (branch_lt (by omega))⟩
      · obtain ⟨before, inside, after, heq, haround, hinside⟩ :=
          exists_around_all ts path (i + 1) h
        obtain ⟨j, a, hj, hp⟩ := branch_of_mem_stepsFrom h
        change p = path ++ j :: a at hp
        refine ⟨t.steps (path ++ [i]) ++ before, inside, after, ?_, ⟨?_, haround.after⟩, hinside⟩
        · rw [stepsFrom, heq, List.append_assoc]
        · intro x hx
          rcases List.mem_append.mp hx with hx | hx
          · obtain ⟨rest, hrest⟩ := prefix_of_mem_steps hx
            rw [List.append_assoc, List.singleton_append] at hrest
            rw [← hrest, hp]
            exact branch_lt (by omega)
          · exact haround.before x hx

end

mutual

theorem bracketed_steps (skipped : List (List Nat)) : ∀ (t : Tree) (path : List Nat),
    Bracketed skipped (Step.without skipped (t.steps path))
  | .node root children, path => by
      have hinside := inside_stepsFrom path 0 children
      rw [steps]
      by_cases henter : Step.isOmitted skipped ⟨path, .enter root⟩ = false
      · rw [Step.without_cons henter, Step.without_append]
        by_cases hpath : path ∈ skipped
        · have hleave := Step.isOmitted_leave_of_mem hpath root
          rw [Step.without_eq_nil (hinside.isOmitted hpath),
            Step.without_eq_nil (List.forall_mem_singleton.mpr hleave)]
          exact .passed hpath .nil
        · rw [Step.without_cons (Step.isOmitted_leave_of_enter henter hpath root)]
          exact .entered hpath (bracketed_stepsFrom skipped children path 0) .nil
      · -- The node is inside of a skipped one, and so is all that happens in it.
        have habove : ∃ q ∈ skipped, q <+: path ∧ q ≠ path := by
          rw [Step.isOmitted_enter] at henter
          simpa only [not_forall, exists_prop] using henter
        obtain ⟨q, hq, hbegins, hne⟩ := habove
        have hlength : q.length < path.length :=
          lt_of_le_of_ne hbegins.length_le fun h => hne (hbegins.eq_of_length h)
        rw [← steps, Step.without_eq_nil fun x hx => ?_]
        · exact .nil
        · have hx := prefix_of_mem_steps hx
          refine Step.isOmitted_of_below hq (hbegins.trans hx) fun h => ?_
          exact absurd (h ▸ hx.length_le) (by omega)

theorem bracketed_stepsFrom (skipped : List (List Nat)) :
    ∀ (ts : List Tree) (path : List Nat) (i : Nat),
      Bracketed skipped (Step.without skipped (stepsFrom path i ts))
  | [], _, _ => .nil
  | t :: ts, path, i => by
      rw [stepsFrom, Step.without_append]
      exact (bracketed_steps skipped t (path ++ [i])).append
        (bracketed_stepsFrom skipped ts path (i + 1))

end

section

variable {skipped : List (List Nat)} {t : Tree} {path p : List Nat} {n : Node}

/-- What is left of a walk, seen from a node that is not skipped. -/
theorem without_around_entered
    (h : ⟨p, .enter n⟩ ∈ Step.without skipped (t.steps path)) (hp : p ∉ skipped) :
    ∃ before inside after, Step.without skipped (t.steps path) =
        before ++ ⟨p, .enter n⟩ :: (inside ++ ⟨p, .leave n⟩ :: after) ∧
      Around p before after ∧ Inside p inside := by
  obtain ⟨hmem, henter⟩ := Step.mem_without.mp h
  obtain ⟨before, inside, after, heq, haround, hinside⟩ := exists_around t path hmem
  refine ⟨_, Step.without skipped inside, _, ?_, haround.without skipped,
    fun x hx => hinside x (Step.mem_without.mp hx).1⟩
  rw [heq, Step.without_append, Step.without_cons henter, Step.without_append,
    Step.without_cons (Step.isOmitted_leave_of_enter henter hp n)]

/-- What is left of a walk, seen from a node that is skipped. -/
theorem without_around_passed
    (h : ⟨p, .enter n⟩ ∈ Step.without skipped (t.steps path)) (hp : p ∈ skipped) :
    ∃ before after, Step.without skipped (t.steps path) = before ++ ⟨p, .enter n⟩ :: after ∧
      Around p before after := by
  obtain ⟨hmem, henter⟩ := Step.mem_without.mp h
  obtain ⟨before, inside, after, heq, haround, hinside⟩ := exists_around t path hmem
  refine ⟨_, _, ?_, haround.without skipped⟩
  have hleave := Step.isOmitted_leave_of_mem hp n
  rw [heq, Step.without_append, Step.without_cons henter, Step.without_append,
    Step.without_eq_nil (hinside.isOmitted hp), List.nil_append]
  exact congrArg _ (congrArg _ (List.filter_cons_of_neg (by simp [hleave])))

end

theorem enter_mem_steps_iff {t : Tree} {p : List Nat} {n : Node} :
    ⟨p, .enter n⟩ ∈ t.steps [] ↔ ∃ children, t.at? p = some (.node n children) := by
  simp [mem_steps_iff]

theorem leave_mem_steps_iff {t : Tree} {p : List Nat} {n : Node} :
    ⟨p, .leave n⟩ ∈ t.steps [] ↔ ∃ children, t.at? p = some (.node n children) := by
  simp [mem_steps_iff]

/-- What a visitor that begins in some state is told of on a walk through a tree. -/
structure Heard {σ : Type u} (v : Visitor σ) (s : σ) (t : Tree) (steps : List Step) : Prop where
  /-- If it keeps a record of what it is told, the record holds these steps, and nothing else
  is different. -/
  recorded : t.walk v.recording (s, []) = (t.walk v s, steps.map (·.event))
  /-- They are all that happens on a walk that skips nothing, without what is left out where
  the visitor skips. -/
  kept : steps = Step.without (v.skipped s steps) (t.steps [])
  /-- All that happens on such a walk are the events of the tree. -/
  complete : (t.steps []).map (·.event) = t.events
  /-- The nodes that are entered are those that stand inside of no skipped node. -/
  entered_iff : ∀ p n, ⟨p, .enter n⟩ ∈ steps ↔
    (∃ children, t.at? p = some (.node n children)) ∧
      ∀ q ∈ v.skipped s steps, q <+: p → q = p
  /-- The nodes that are left are those among them that are not skipped. -/
  left_iff : ∀ p n, ⟨p, .leave n⟩ ∈ steps ↔
    (∃ children, t.at? p = some (.node n children)) ∧ ∀ q ∈ v.skipped s steps, ¬q <+: p
  /-- Enters and leaves are brackets. -/
  bracketed : Bracketed (v.skipped s steps) steps
  /-- A node that is not skipped is left once, behind all that happens inside of it and before
  anything that stands after it. -/
  descended : ∀ p n, ⟨p, .enter n⟩ ∈ steps → p ∉ v.skipped s steps →
    ∃ before inside after, steps = before ++ ⟨p, .enter n⟩ :: (inside ++ ⟨p, .leave n⟩ :: after) ∧
      Around p before after ∧ Inside p inside
  /-- After a node that is skipped comes what stands after it; the node is not left, and
  nothing happens inside of it. -/
  passed : ∀ p n, ⟨p, .enter n⟩ ∈ steps → p ∈ v.skipped s steps →
    ∃ before after, steps = before ++ ⟨p, .enter n⟩ :: after ∧ Around p before after
  /-- Whether a node is skipped or not, all its siblings are entered. -/
  siblings : ∀ p i j n m children, ⟨p ++ [i], .enter n⟩ ∈ steps →
    t.at? (p ++ [j]) = some (.node m children) → ⟨p ++ [j], .enter m⟩ ∈ steps
  /-- Whether a node is skipped or not, all nodes around it are entered and left. -/
  ancestors : ∀ p q n m children, ⟨p, .enter n⟩ ∈ steps → q <+: p → q ≠ p →
    t.at? q = some (.node m children) → ⟨q, .enter m⟩ ∈ steps ∧ ⟨q, .leave m⟩ ∈ steps

/-- What a visitor is told on a walk through a tree is all that happens, without the insides
and the leaves of the nodes that it skips. -/
theorem walk_heard {σ : Type u} (v : Visitor σ) (s : σ) (t : Tree) :
    ∃ steps, Heard v s t steps := by
  obtain ⟨steps, hkept, hwalk, hrecorded⟩ := exists_hears v t [] s
  have hentered : ∀ p n, ⟨p, .enter n⟩ ∈ steps ↔
      (∃ children, t.at? p = some (.node n children)) ∧
        ∀ q ∈ v.skipped s steps, q <+: p → q = p := by
    intro p n
    conv_lhs => rw [hkept]
    rw [Step.mem_without, enter_mem_steps_iff, Step.isOmitted_enter]
  have hleft : ∀ p n, ⟨p, .leave n⟩ ∈ steps ↔
      (∃ children, t.at? p = some (.node n children)) ∧
        ∀ q ∈ v.skipped s steps, ¬q <+: p := by
    intro p n
    conv_lhs => rw [hkept]
    rw [Step.mem_without, leave_mem_steps_iff, Step.isOmitted_leave]
  refine ⟨steps, ?_, hkept, map_event_steps [] t, hentered, hleft, ?_, ?_, ?_, ?_, ?_⟩
  · rw [hrecorded, hwalk, List.nil_append]
  · have hbracketed := bracketed_steps (v.skipped s steps) t []
    rwa [← hkept] at hbracketed
  · intro p n h hp
    rw [hkept] at h
    have haround := without_around_entered h hp
    rwa [← hkept] at haround
  · intro p n h hp
    rw [hkept] at h
    have haround := without_around_passed h hp
    rwa [← hkept] at haround
  · intro p i j n m children h hat
    refine (hentered _ m).mpr ⟨⟨children, hat⟩, fun q hq hbegins => ?_⟩
    rcases List.prefix_concat_iff.mp hbegins with rfl | hbegins
    · rfl
    · -- A skipped node around one sibling would be around the other one too.
      have hq' := ((hentered _ n).mp h).2 q hq (hbegins.trans (List.prefix_append p [i]))
      have hlength := hbegins.length_le
      rw [hq', List.length_append, List.length_singleton] at hlength
      omega
  · intro p q n m children h hbegins hne hat
    have hfree : ∀ r ∈ v.skipped s steps, ¬r <+: q := by
      intro r hr hrq
      obtain rfl := ((hentered p n).mp h).2 r hr (hrq.trans hbegins)
      exact hne (hbegins.eq_of_length_le hrq.length_le)
    exact ⟨(hentered q m).mpr ⟨⟨children, hat⟩, fun r hr hrq => absurd hrq (hfree r hr)⟩,
      (hleft q m).mpr ⟨⟨children, hat⟩, hfree⟩⟩

end Tree

end GraphLint
