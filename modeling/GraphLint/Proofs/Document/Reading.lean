import GraphLint.Document.Grammar

/-!
# What reading tells of names

Reading goes forward (`Production.forward`), and a name is the token that is taken for
it.  Names that are read one after another are therefore numbered in ascending order.
`Ascend` says so of some token numbers between two places of a text, and `Writes` of
those that a production puts into what it reads.

Some things hold of whatever a production reads; `Gives` says so.  Reading also takes no
fault back (`Cursor.Leads`).  Where the grammar asks for a name and there is none, a fault
is noted, and it is still there in the end.  `Ensures` says what holds of what is read if
there is no fault in the end.
-/

set_option autoImplicit false

namespace GraphLint

/-- Token numbers in ascending order, from one number up to another. -/
structure Ascend (first : Nat) (tokens : List Nat) (stop : Nat) : Prop where
  /-- They ascend. -/
  order : tokens.Pairwise (· < ·)
  /-- None is out of bounds. -/
  range : ∀ t ∈ tokens, first ≤ t ∧ t < stop

namespace Ascend

theorem nil (first stop : Nat) : Ascend first [] stop :=
  ⟨List.Pairwise.nil, fun _ h => absurd h List.not_mem_nil⟩

theorem singleton {first t stop : Nat} (hfirst : first ≤ t) (hstop : t < stop) :
    Ascend first [t] stop := by
  refine ⟨List.pairwise_singleton _ _, ?_⟩
  intro u hu
  obtain rfl := List.mem_singleton.mp hu
  exact ⟨hfirst, hstop⟩

theorem append {first mid stop : Nat} {ts us : List Nat} (hts : Ascend first ts mid)
    (hus : Ascend mid us stop) (hfirst : first ≤ mid) (hstop : mid ≤ stop) :
    Ascend first (ts ++ us) stop := by
  refine ⟨List.pairwise_append.mpr ⟨hts.order, hus.order, ?_⟩, ?_⟩
  · intro t ht u hu
    exact Nat.lt_of_lt_of_le (hts.range t ht).2 (hus.range u hu).1
  · intro t ht
    rcases List.mem_append.mp ht with ht | ht
    · exact ⟨(hts.range t ht).1, Nat.lt_of_lt_of_le (hts.range t ht).2 hstop⟩
    · exact ⟨Nat.le_trans hfirst (hus.range t ht).1, (hus.range t ht).2⟩

end Ascend

namespace Production

variable {α β : Type}

theorem run_bind (p : Production α) (f : α → Production β) (c : Cursor) :
    (p >>= f).run c = (f (p.run c).1).run (p.run c).2 := rfl

/-- What a production reads is good, wherever it begins. -/
def Gives (p : Production α) (good : α → Prop) : Prop := ∀ c, good (p.run c).1

/-- It does not matter what is read before. -/
theorem Gives.behind {good : α → Prop} (before : Production β) {rest : β → Production α}
    (h : ∀ b, (rest b).Gives good) : (before >>= rest).Gives good := fun _ => h _ _

/-! ## Names -/

/-- A name is the token that is taken for it. -/
theorem name?_token {c : Cursor} {n : Name} (h : (name?.run c).1 = some n) :
    n.token = c.index ∧ c.index < (name?.run c).2.index := by
  obtain ⟨ahead, index, discarded, faults, isAbandoned⟩ := c
  cases ahead with
  | nil => cases h
  | cons u ahead =>
      obtain ⟨token, afterComma⟩ := u
      cases token with
      | name text =>
          obtain rfl := Option.some.inj h
          exact ⟨rfl, Nat.lt_succ_self index⟩
      | _ => cases h

theorem name_token {c : Cursor} {n : Name} (h : (name.run c).1 = some n) :
    n.token = c.index ∧ c.index < (name.run c).2.index := by
  unfold name at h ⊢
  rw [run_bind] at h ⊢
  cases hn : (name?.run c).1 with
  | none =>
      rw [hn] at h
      cases h
  | some m =>
      rw [hn] at h
      obtain rfl := Option.some.inj h
      exact name?_token hn

/-! ## Names in what is read -/

/-- A production puts token numbers into what it reads, in ascending order. -/
def Writes (p : Production α) (tokens : α → List Nat) : Prop :=
  ∀ c, Ascend c.index (tokens (p.run c).1) (p.run c).2.index

namespace Writes

variable {p : Production α} {tokens : α → List Nat} {more : Token → Bool}

theorem silent (h : p.Gives (tokens · = [])) : p.Writes tokens := by
  intro c
  rw [h]
  exact .nil _ _

/-- What is read first does not matter where nothing of it is put in. -/
theorem behind (before : Production β) {rest : β → Production α}
    (h : ∀ b, (rest b).Writes tokens) : (before >>= rest).Writes tokens := by
  intro c
  have hrest := h (before.run c).1 (before.run c).2
  refine ⟨hrest.order, ?_⟩
  intro t ht
  have ⟨hfirst, hstop⟩ := hrest.range t ht
  exact ⟨Nat.le_trans (before.forward c) hfirst, hstop⟩

/-- A name is put in, and nothing of what is read behind it. -/
theorem named {rest : Option Name → Production α}
    (h : ∀ n c, tokens ((rest n).run c).1 = n.toList.map (·.token)) :
    (name >>= rest).Writes tokens := by
  intro c
  rw [run_bind, h]
  have hrest := (rest (name.run c).1).forward (name.run c).2
  cases hname : (name.run c).1 with
  | none => exact .nil _ _
  | some n =>
      obtain ⟨htoken, hnext⟩ := name_token hname
      rw [hname] at hrest
      have hfirst : c.index ≤ n.token := Nat.le_of_eq htoken.symm
      have hstop : n.token < (name.run c).2.index := htoken ▸ hnext
      exact .singleton hfirst (Nat.lt_of_lt_of_le hstop hrest)

/-- What is read is put into something. -/
theorem map {f : α → β} {tokens' : β → List Nat} (hp : p.Writes tokens)
    (h : ∀ a, tokens' (f a) = tokens a) : (p >>= fun a => pure (f a)).Writes tokens' := by
  intro c
  show Ascend c.index (tokens' (f (p.run c).1)) (p.run c).2.index
  rw [h]
  exact hp c

/-- What is repeated goes on where it has come to. -/
theorem manyWithin (hp : p.Writes tokens) :
    ∀ bound, (manyWithin more p bound).Writes (·.flatMap tokens)
  | 0, _ => .nil _ _
  | bound + 1, c => by
      unfold Production.manyWithin
      rw [run_bind]
      split
      · split
        · have hrest := hp.manyWithin bound (p.run c).2
          rw [run_bind]
          show Ascend c.index (tokens (p.run c).1 ++ _) _
          exact (hp c).append hrest (p.forward c) (Production.forward _ _)
        · exact .nil _ _
      · exact .nil _ _

theorem many (hp : p.Writes tokens) : (many more p).Writes (·.flatMap tokens) :=
  fun c => hp.manyWithin c.ahead.length c

end Writes

/-! ## What is read without a fault -/

/-- What a production reads is good if there is no fault in the end.  This is asked of
places only that reading has not stopped before. -/
def Ensures (p : Production α) (good : α → Prop) : Prop :=
  ∀ c, c.isAbandoned = false → (p.run c).2.faults = [] → good (p.run c).1

namespace Ensures

variable {p : Production α} {good : α → Prop} {more : Token → Bool}

theorem silent (h : p.Gives good) : p.Ensures good := fun c _ _ => h c

/-- A reading without a fault has not stopped, and was without a fault at each place. -/
theorem faultless {c : Cursor} (hc : c.isAbandoned = false) (h : (p.run c).2.faults = []) :
    (p.run c).2.isAbandoned = false := by
  cases hstopped : (p.run c).2.isAbandoned with
  | false => rfl
  | true =>
      rcases (p.leads c).isAbandoned hstopped with hbefore | hne
      · rw [hbefore] at hc
        cases hc
      · exact absurd h hne

theorem behind (before : Production β) {rest : β → Production α}
    (h : ∀ b, (rest b).Ensures good) : (before >>= rest).Ensures good := by
  intro c hc hfaults
  have hbefore : (before.run c).2.faults = [] := ((rest _).leads _).faults hfaults
  exact h _ _ (faultless hc hbefore) hfaults

/-- What is read first is good, and so is what is read behind it. -/
theorem bind {p : Production β} {good' : β → Prop} {rest : β → Production α} (hp : p.Ensures good')
    (h : ∀ b, good' b → (rest b).Ensures good) : (p >>= rest).Ensures good := by
  intro c hc hfaults
  have hbefore : (p.run c).2.faults = [] := ((rest _).leads _).faults hfaults
  exact h _ (hp c hc hbefore) _ (faultless hc hbefore) hfaults

/-- Behind a fault anything holds. -/
theorem fault (expected : String) {rest : Unit → Production α} :
    (Production.fault expected >>= rest).Ensures good := by
  intro c hc hfaults
  have hnoted : (c.noting expected).faults = [] := ((rest ()).leads _).faults hfaults
  exact absurd hnoted (c.noting_ne_nil hc expected)

/-- So it does where reading stops. -/
theorem abandon (expected : String) {rest : Unit → Production α} :
    (Production.abandon expected >>= rest).Ensures good := by
  intro c hc hfaults
  have hstopped : ((Production.abandon expected).run c).2.faults = [] :=
    ((rest ()).leads _).faults hfaults
  exact absurd hstopped (c.noting_ne_nil hc expected)

/-- Where the grammar asks for a name there is one. -/
theorem name : name.Ensures fun n => ∃ m, n = some m := by
  refine .behind name? fun n => ?_
  cases n with
  | some m => exact .silent fun _ => ⟨m, rfl⟩
  | none => exact .fault _

theorem map {f : α → β} {good' : β → Prop} (hp : p.Ensures good) (h : ∀ a, good a → good' (f a)) :
    (p >>= fun a => pure (f a)).Ensures good' :=
  fun c hc hfaults => h _ (hp c hc hfaults)

theorem manyWithin (hp : p.Ensures good) :
    ∀ bound, (manyWithin more p bound).Ensures fun xs => ∀ x ∈ xs, good x
  | 0 => .silent fun _ _ h => absurd h List.not_mem_nil
  | bound + 1 => by
      unfold Production.manyWithin
      refine .behind peek fun next => ?_
      split
      · split
        · intro c hc hfaults
          have hfirst : (p.run c).2.faults = [] :=
            ((Production.manyWithin more p bound).leads _).faults hfaults
          have hrest := hp.manyWithin bound _ (faultless hc hfirst) hfaults
          exact List.forall_mem_cons.mpr ⟨hp c hc hfirst, hrest⟩
        · exact .silent fun _ _ h => absurd h List.not_mem_nil
      · exact .silent fun _ _ h => absurd h List.not_mem_nil

theorem many (hp : p.Ensures good) : (many more p).Ensures fun xs => ∀ x ∈ xs, good x :=
  fun c => hp.manyWithin c.ahead.length c

end Ensures

end Production

/-! ## Definitions -/

namespace Grammar

open Production

/-- What definitions are read by. -/
inductive Defines : Production Definition → Prop
  | shorthand : Defines shorthand
  | operation (kind : OperationKind) : Defines (operation kind)
  | fragment : Defines fragmentDefinition
  | schema : Defines schemaDefinition
  | schemaExtension : Defines schemaExtension
  | type (kind : TypeKind) : Defines (typeDefinition kind)
  | typeExtension (kind : TypeKind) : Defines (typeExtension kind)
  | directive : Defines directiveDefinition

section

variable {good : Definition → Prop}

/-- Whatever is written in it, an operation is read as one, of the kind that its keyword
names. -/
theorem operation_gives (kind : OperationKind) (h : ∀ o, o.kind = kind → good (.operation o)) :
    (operation kind).Gives good := by
  refine .behind here fun start => .behind bump fun _ => .behind name? fun n => ?_
  refine .behind variableDefinitions fun defined => .behind (directives _ _) fun uses => ?_
  refine .behind (sees .braceOpen) fun isBraced => ?_
  split
  · exact fun _ => h _ rfl
  · exact fun _ => h _ rfl

theorem schemaDefinition_gives (h : ∀ d, good (.schema d)) : schemaDefinition.Gives good := by
  refine .behind here fun start => .behind description fun _ => .behind bump fun _ => ?_
  refine .behind constantDirectives fun uses => .behind (sees .braceOpen) fun isBraced => ?_
  refine .behind rootOperations fun roots => ?_
  split
  · exact fun _ => h _
  · exact fun _ => h _

theorem schemaExtension_gives (h : ∀ d, good (.schema d)) : schemaExtension.Gives good := by
  refine .behind here fun start => .behind bump fun _ => .behind bump fun _ => ?_
  refine .behind constantDirectives fun uses => .behind rootOperations fun roots => ?_
  split
  · exact fun _ => h _
  · exact fun _ => h _

end

/-- What holds of each production that reads a definition holds of all of them together,
if it does not matter what is looked at before. -/
theorem definition_of_defines {Q : Production (Option Definition) → Prop}
    (behind : ∀ {β : Type} (before : Production β) {rest : β → Production (Option Definition)},
      (∀ b, Q (rest b)) → Q (before >>= rest))
    (nothing : Q (pure none)) (defines : ∀ p, Defines p → Q (p >>= fun d => pure (some d))) :
    Q definition := by
  have hstray : Q (faultAndBump "a definition" >>= fun _ => pure none) :=
    behind _ fun _ => nothing
  refine behind peek fun first => behind _ fun leading => ?_
  split
  · split
    · exact hstray
    · exact defines _ .shorthand
  · split
    · exact defines _ .schema
    · exact defines _ .directive
    · exact defines _ .fragment
    · split
      · exact hstray
      · refine behind peekSecond fun second => ?_
        split
        · exact defines _ .schemaExtension
        · split
          · exact defines _ (.typeExtension _)
          · exact hstray
        · exact hstray
    · split
      · exact defines _ (.type _)
      · split
        · exact hstray
        · exact defines _ (.operation _)
      · exact hstray
  · exact hstray

end Grammar

end GraphLint
